import EventTrace.Proofs.Capture.Running
import EventTrace.Proofs.Depot.Pacing
/-!
# Capture — what is told of an overflow

In a process, chunks are rented by writers only, so the flag on a recording
says just whether something was lost to a limit (`truthful_stop`). Together
with what is told of an overflow, when and for which limit, this is
`overflow_told`; a rental by hand that is refused is the one way to overflow
and lose nothing (`flag_without_loss`).
-/

namespace EventTrace

open Depot

namespace Depot

variable {d d' : Depot} {k : CollectorId} {F : List CollectorId}

/-- Every session's flag is up exactly if something was lost to a limit. -/
def Truthful (d : Depot) : Prop := ∀ k, d.flagged k = true ↔ d.Lost k

namespace Truthful

theorem of_squares (h : Truthful d) (hsquares : ∀ k, Squares k d d') : Truthful d' := by
  intro k
  cases hsquares k with
  | still hflag hlosses => rw [hflag, h k, hlosses]
  | raised hup hlost => exact iff_of_true hup hlost

theorem unpressed (h : Truthful d) (h' : Unpressed d d') : Truthful d' :=
  h.of_squares fun k => .of_pressing (h'.losses k)

/-- Sessions that are not there yet have overflowed no limit. -/
theorem of_empty (h : d.collectors = #[]) : Truthful d := by
  intro k
  have hnew : d.collector k = default := collector_of_ge (by simp [h])
  simp only [flagged, Lost, hnew]
  decide

/-- **Every call keeps flags true**, writes included. -/
theorem call (h : Truthful d) (hposted : Posted F d) (c : Call) : Truthful (c.apply d) := by
  refine h.of_squares fun k => ?_
  have htallies : ∀ j, (Op.call c).tallies? = some j → j < d.collectors.size := fun j hj =>
    absurd hj (by simp [Op.tallies?])
  rcases hposted.squares_op (o := .call c) rfl htallies k with hsquares | ⟨hrent, -⟩
  · exact hsquares
  · exact absurd hrent (by simp)

end Truthful

end Depot

namespace Capture

variable {c c' : Capture} {t : ThreadId} {F : List CollectorId}

theorem truthful_dropWriter (h : Truthful c.depot) (t : ThreadId) :
    Truthful (c.dropWriter t).depot := by
  unfold Capture.dropWriter
  split
  · exact h
  · exact h.unpressed (unpressed_dropWriter _ _)

theorem truthful_bind (h : Truthful c.depot) (t : ThreadId) : Truthful (c.bind t).2.depot := by
  have hdropped := truthful_dropWriter h t
  unfold Capture.bind
  dsimp only
  split
  · exact h
  · split
    · exact hdropped
    · split
      · exact hdropped.unpressed (unpressed_newWriter _ _ _ _)
      · exact hdropped

theorem truthful_emit (h : Truthful c.depot) (ho : InOrder F c) (t : ThreadId) (e : Emission)
    (now : Reading) : Truthful (c.emit t e now).depot := by
  have hbound := truthful_bind h t
  have horder := ho.bind t
  unfold Capture.emit
  split
  · exact h
  · split
    · next hc₁ => rwa [hc₁] at hbound
    · next w c₁ hc₁ =>
      rw [hc₁] at hbound horder
      exact hbound.call horder.posted (.write w e now)

theorem truthful_withDepotFor (h : Truthful c.depot) (capacity : Nat) :
    Truthful (c.withDepotFor capacity).depot := by
  unfold Capture.withDepotFor
  split
  · exact h
  · exact .of_empty rfl

theorem truthful_start (h : Truthful c.depot) {o : Options} {now : Int}
    (hstart : c.start o now = .ok c') : Truthful c'.depot := by
  have hopened := truthful_withDepotFor h o.effectiveChunkCapacity
  unfold Capture.start at hstart
  split at hstart
  · exact absurd hstart (by simp)
  · split at hstart
    · exact absurd hstart (by simp)
    · obtain rfl := (Except.ok.inj hstart).symm
      exact (hopened.unpressed (unpressed_newCollector _ o)).unpressed
        (.of_collectors rfl (alarms_note rfl))

/-- A stop records the losses of its session as they stay. -/
theorem losses_of_stop {now : Int} {stopped : Recording × Capture}
    (hstop : c.stop now = .ok stopped) : ∃ live, c.session = some live ∧
      stopped.1.losses = (stopped.2.depot.collector live.collector).losses ∧
      Unpressed c.depot stopped.2.depot := by
  unfold Capture.stop at hstop
  split at hstop
  · next live hrunning hlive =>
    rcases hclosed : (c.depot.close live.collector).closeWriters live.collector with ⟨writers, d⟩
    rcases hfreeze : d.freeze live.collector with ⟨chunks, frozen⟩
    simp only [hclosed, hfreeze] at hstop
    obtain rfl := (Except.ok.inj hstop).symm
    have hshut := (unpressed_close c.depot live.collector).trans
      (unpressed_closeWriters (c.depot.close live.collector) live.collector)
    have hfrozen := unpressed_freeze d live.collector
    rw [hclosed] at hshut
    rw [hfreeze] at hfrozen
    exact ⟨live, hlive, rfl, (hshut.trans hfrozen).trans (.of_collectors rfl (alarms_note rfl))⟩
  · exact absurd hstop (by simp)

/-- **Every act leaves flags true.** -/
theorem truthful_act (h : Truthful c.depot) (ho : InOrder F c) (a : Act) :
    Truthful (c.act a).depot := by
  cases a with
  | start o now =>
    dsimp only [Capture.act]
    split
    · next hstart => exact truthful_start h hstart
    · exact h
  | stop now =>
    dsimp only [Capture.act]
    split
    · next hstop =>
      obtain ⟨-, -, -, hstopped⟩ := losses_of_stop hstop
      exact h.unpressed hstopped
    · exact h
  | emit t e now => exact truthful_emit h ho t e now
  | endThread t => exact truthful_dropWriter h t
  | newFlow => exact h

/-- **Flags are true in a process**, after every run. -/
theorem truthful_after (names : List (Option String)) (acts : List Act) :
    Truthful (Capture.after names acts).depot := by
  induction acts using List.reverseRecOn with
  | nil => exact .of_empty rfl
  | append_singleton acts a ih =>
    obtain ⟨F, horder⟩ := InOrder.after names acts
    rw [Capture.after, List.foldl_concat]
    exact truthful_act ih horder a

/-- **A recording says truly whether something was lost to a limit.** -/
theorem truthful_stop (h : Truthful c.depot) {now : Int} {stopped : Recording × Capture}
    (hstop : c.stop now = .ok stopped) :
    stopped.1.losses.overflowed = true ↔ stopped.1.losses.ToLimits := by
  obtain ⟨live, -, hlosses, hstopped⟩ := losses_of_stop hstop
  rw [hlosses]
  exact h.unpressed hstopped live.collector

end Capture

/-! ## What is told -/

/-- A write has reached the limit that a reason names, and the session asks
for it: one of the two caps, or the rate, in the window of the writer that the
event falls into. -/
def Depot.Meets (d : Depot) (k : CollectorId) (s : Writer) (now : Reading) : Reason → Prop
  | .maxTotalChunks => (d.collector k).options.maxTotalChunks ≠ 0 ∧
      (d.collector k).options.maxTotalChunks ≤ (d.collector k).chunkCount
  | .maxTotalEvents => (d.collector k).options.maxTotalEvents ≠ 0 ∧
      (d.collector k).options.maxTotalEvents ≤ (d.collector k).eventCount.toNat
  | .rateLimit => (d.collector k).options.maxEventsPerSecond ≠ 0 ∧
      (d.collector k).options.maxEventsPerSecond ≤ (s.screen.window.current now.arrival).count

namespace Depot

variable {d : Depot} {k : CollectorId} {w : WriterId} {s : Writer} {F : List CollectorId}
  {em : Emission} {now : Reading}

/-- A cap that is reached is one that is asked for. -/
theorem meets_of_atCap {reason : Reason} (h : (d.collector k).AtCap reason) :
    d.Meets k s now reason := by
  cases reason with
  | maxTotalEvents =>
    have hfull : (d.collector k).hasEventRoom = false := h
    simpa [Collector.hasEventRoom, Meets] using hfull
  | maxTotalChunks =>
    have hfull : (d.collector k).hasChunkRoom = false := h
    simpa [Collector.hasChunkRoom, Meets] using hfull
  | rateLimit => exact h.elim

/-- **An alarm that a write sounds is for a limit it has met**, a cap if its
tests let the event pass, and else the rate. -/
theorem Posted.meets_of_write (h : Posted F d) (hpaced : Paced d) (hw : d.writer? w = some s)
    (hs : s.collector = some k) (hdown : d.flagged k = false)
    (hup : (d.write w em now).2.flagged k = true) :
    ∃ reason, (d.write w em now).2.alarms = d.alarms ++ [d.alarm k reason] ∧
      (s.screen.screen em.id em.kind now.arrival).1 =
        (if reason = .rateLimit then .rateLimited else .passed) ∧
      d.Meets k s now reason := by
  cases (confined_write hw hs (h.attached w s k hw hs) em now).rings with
  | quiet hflag _ => exact absurd (hup.symm.trans (hflag.trans hdown)) (by simp)
  | rung reason hreached _ _ halarms =>
    refine ⟨reason, halarms, ?_⟩
    rcases hreached with ⟨hpassed, hcap⟩ | ⟨hlimited, rfl⟩
    · have hne : reason ≠ .rateLimit := by
        rintro rfl
        exact hcap
      exact ⟨by rw [hpassed, if_neg hne], meets_of_atCap hcap⟩
    · obtain ⟨hlimit, hfull⟩ := Screen.full_of_rateLimited hlimited
      rw [hpaced w s k hw hs] at hlimit hfull
      exact ⟨by rw [hlimited, if_pos rfl], Nat.ne_of_gt hlimit, hfull⟩

end Depot

/-- **An overflow is told once, and truly.** In any run that counts losses by
hand only of sessions that are there: what is told are alarms of the policy
that is asked for, one for each session that has overflowed; an alarm goes
with the step that raises the session's flag, and no flag falls; once every
operation is done the flag is up exactly where something was lost to a limit,
or a chunk asked for by hand was refused at the cap; and the alarm of a write
is for a limit that is asked for and that the write has met, never for
sampling or a filter. In a process no chunk is asked for by hand, so the flag
of a recording is up exactly if something was lost to a limit. -/
theorem overflow_told :
    (∀ capacity ops, Addressed capacity ops →
      let d := runOps capacity ops
      (∃ raised : List (CollectorId × Reason), (raised.map Prod.fst).Nodup ∧
        (∀ k, k ∈ raised.map Prod.fst ↔ d.flagged k = true) ∧
        d.alarms = raised.map fun p => d.alarm p.1 p.2) ∧
      (∀ o, Addressed capacity (ops ++ [o]) →
        Watched d (o.apply d) ∧ ∀ k, d.flagged k = true → (o.apply d).flagged k = true) ∧
      ((∀ o ∈ ops, o.isStage = false) →
        ∀ k, d.flagged k = true ↔ d.Lost k ∨ Refused capacity ops k) ∧
      ∀ w s k em now, d.writer? w = some s → s.collector = some k → d.flagged k = false →
        (d.write w em now).2.flagged k = true →
        ∃ reason, (d.write w em now).2.alarms = d.alarms ++ [d.alarm k reason] ∧
          (s.screen.screen em.id em.kind now.arrival).1 =
            (if reason = .rateLimit then .rateLimited else .passed) ∧
          d.Meets k s now reason) ∧
    ∀ names acts now stopped, (Capture.after names acts).stop now = .ok stopped →
      (stopped.1.losses.overflowed = true ↔ stopped.1.losses.ToLimits) := by
  refine ⟨fun capacity ops h => ?_, fun names acts now stopped hstop => ?_⟩
  · obtain ⟨F, G, hstocked⟩ := exists_stocked_runOps capacity ops
    refine ⟨exists_raised_runOps h, fun o ho => ?_, flagged_runOps h, ?_⟩
    · have hwatched := runOps_concat capacity ops o ▸ ho.watched
      exact ⟨hwatched, fun _ => hwatched.flagged_mono⟩
    · intro w s k em now hw hs hdown hup
      exact hstocked.meets_of_write (paced_runOps h) hw hs hdown hup
  · exact Capture.truthful_stop (Capture.truthful_after names acts) hstop

/-- A session that holds all the events it may, and tells of overflows. -/
def brimful : List Op :=
  let e : Emission := { id := 7, kind := .instant }
  [.call (.newCollector { maxTotalEvents := 1, tellsOverflow := true }),
    .call (.newWriter 0 1 none), .call (.write 0 e ⟨1, 1⟩)]

/-- A process records two events where it may hold one. -/
def overfilled : List Act :=
  let e : Emission := { id := 7, kind := .instant }
  [.start { maxTotalEvents := 1 } 0, .emit 0 e ⟨1, 1⟩, .emit 0 e ⟨2, 2⟩]

/-- One event more is told of, for the cap that it has met, and a recording
that lost an event says so. -/
theorem overflow_told_brimful :
    let e : Emission := { id := 7, kind := .instant }
    let d := runOps 4 brimful
    let r := d.write 0 e ⟨2, 2⟩
    (d.flagged 0 = false ∧ r.2.flagged 0 = true ∧ r.2.Lost 0) ∧
      (∃ reason, r.2.alarms = [.overflow reason .dropNew true] ∧
        ∃ s, d.writer? 0 = some s ∧ d.Meets 0 s ⟨2, 2⟩ reason) ∧
      ∃ stopped, (Capture.after [none] overfilled).stop 3 = .ok stopped ∧
        stopped.1.losses.overflowed = true := by
  intro e d r
  have hbefore : Addressed 4 brimful :=
    addressed_of_untallied (by simp [brimful, Op.tallies?])
  have hafter : Addressed 4 (brimful ++ [.call (.write 0 e ⟨2, 2⟩)]) :=
    addressed_of_untallied (by simp [brimful, Op.tallies?])
  have hwhole : ∀ o ∈ brimful ++ [.call (.write 0 e ⟨2, 2⟩)], o.isStage = false := by
    simp [brimful, Op.isStage]
  have hnone : ¬ Refused 4 (brimful ++ [.call (.write 0 e ⟨2, 2⟩)]) 0 := by
    rintro ⟨before, after, heq, -⟩
    have hin : Op.rent 0 ∈ brimful ++ [.call (.write 0 e ⟨2, 2⟩)] := by
      rw [heq]
      simp
    simp [brimful] at hin
  have hdown : d.flagged 0 = false := by decide
  have hup : r.2.flagged 0 = true := by decide
  obtain ⟨hruns, hrecordings⟩ := overflow_told
  obtain ⟨-, -, htrue, -⟩ := hruns 4 _ hafter
  obtain ⟨-, -, -, hwrites⟩ := hruns 4 brimful hbefore
  have hlost : r.2.Lost 0 := ((htrue hwhole 0).mp hup).resolve_right hnone
  refine ⟨⟨hdown, hup, hlost⟩, ?_, ?_⟩
  · have hsession : d.session? 0 = some 0 := by decide
    obtain ⟨s, hw, hs⟩ := Option.bind_eq_some_iff.mp hsession
    obtain ⟨reason, halarms, -, hmeets⟩ := hwrites 0 s 0 e ⟨2, 2⟩ hw hs hdown hup
    refine ⟨reason, halarms.trans ?_, s, hw, hmeets⟩
    have hquiet : d.alarms = [] := by decide
    have hpolicy : (d.collector 0).options.policy = .dropNew := by decide
    have htells : (d.collector 0).options.tellsOverflow = true := by decide
    show d.alarms ++ [d.alarm 0 reason] = _
    rw [hquiet, alarm, hpolicy, htells]
    rfl
  · have hlosses : ((Capture.after [none] overfilled).stop 3).toOption.map
        (·.1.losses.droppedEvents) = some 1 := by decide +kernel
    cases hstop : (Capture.after [none] overfilled).stop 3 with
    | error cause =>
      rw [hstop] at hlosses
      exact absurd hlosses (by simp [Except.toOption])
    | ok stopped =>
      rw [hstop] at hlosses
      have hone : stopped.1.losses.droppedEvents = 1 := Option.some.inj hlosses
      have hsome : stopped.1.losses.ToLimits := .inl (hone ▸ Nat.one_pos)
      exact ⟨stopped, rfl, (hrecordings _ _ _ _ hstop).mpr hsome⟩

/-- A session with one chunk, which its writer holds, and a chunk asked for by
hand that it refuses. -/
def refusedByHand : List Op :=
  let e : Emission := { id := 7, kind := .instant }
  [.call (.newCollector { maxTotalChunks := 1 }), .call (.newWriter 0 1 none),
    .call (.write 0 e ⟨1, 1⟩), .rent 0]

/-- After a write the flag is up though nothing was lost, and every event came
through a writer. -/
theorem flag_without_loss :
    let e : Emission := { id := 7, kind := .instant }
    let r := (runOps 4 refusedByHand).write 0 e ⟨2, 2⟩
    ThroughWriters refusedByHand ∧ r.1 = true ∧ r.2.flagged 0 = true ∧ ¬ r.2.Lost 0 := by
  intro e r
  refine ⟨by simp [ThroughWriters, refusedByHand, Op.feeds], by decide, by decide, ?_⟩
  show ¬ (r.2.collector 0).losses.ToLimits
  decide

end EventTrace
