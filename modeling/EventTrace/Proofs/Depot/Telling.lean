import EventTrace.Proofs.Depot.Feeding
import EventTrace.Proofs.Depot.Unpressed
/-!
# Depot — an overflow is told once, and truly

A session tells of its overflow in the one step that raises its flag, and
never again: what is on record after a run is one alarm for each session that
has overflowed (`exists_raised_runOps`). The flag goes with the losses to a
limit. It is up if there are any, and otherwise only where a chunk was asked
for by hand and refused at the cap, which loses nothing (`flagged_runOps`).
-/

namespace EventTrace

open Depot

/-- Whether something was lost to a limit. Sampling is none. -/
def Losses.ToLimits (l : Losses) : Prop :=
  0 < l.droppedEvents ∨ 0 < l.droppedChunks ∨ 0 < l.rateLimited

instance (l : Losses) : Decidable l.ToLimits :=
  inferInstanceAs (Decidable (0 < l.droppedEvents ∨ 0 < l.droppedChunks ∨ 0 < l.rateLimited))

/-- The session of which an operation counts an event as lost by hand. -/
def Op.tallies? : Op → Option CollectorId
  | recordDropped k _ | recordRateLimited k => some k
  | _ => none

/-- A run in which losses are counted by hand only of sessions that are
there. -/
def Addressed (capacity : Nat) (ops : List Op) : Prop :=
  ∀ before o after k, ops = before ++ o :: after → o.tallies? = some k →
    k < (runOps capacity before).collectors.size

/-- Whether an operation is a stage that may leave its losses to be counted,
or told, by a later one. -/
def Op.isStage : Op → Bool
  | holdRoom _ | evict _ => true
  | _ => false

/-- A chunk was asked for by hand and refused, though the session was open. -/
def Refused (capacity : Nat) (ops : List Op) (k : CollectorId) : Prop :=
  ∃ before after, ops = before ++ .rent k :: after ∧
    ((runOps capacity before).collector k).closed = false ∧
    ((runOps capacity before).rent k).1 = none

namespace Depot

variable {d d' e : Depot} {c : ChunkId} {k j : CollectorId} {w : WriterId} {s : Writer}
  {F : List CollectorId} {R : Reason → Prop}

/-! ## Alarms -/

/-- One step as those see it who are told of overflows: nothing, or the flag
of one session goes up and that is told, once. -/
structure Watched (d d' : Depot) : Prop where
  size : d.collectors.size ≤ d'.collectors.size
  options : ∀ k < d.collectors.size, (d'.collector k).options = (d.collector k).options
  told : (∀ k, d'.flagged k = d.flagged k) ∧ d'.alarms = d.alarms ∨
    ∃ k < d.collectors.size, ∃ reason, d.flagged k = false ∧ d'.flagged k = true ∧
      (∀ j ≠ k, d'.flagged j = d.flagged j) ∧ d'.alarms = d.alarms ++ [d.alarm k reason]

theorem Unpressed.watched (h : Unpressed d d') : Watched d d' := by
  refine ⟨h.size, h.options, .inl ⟨fun k => ?_, h.alarms⟩⟩
  have hflag := congrArg Losses.overflowed (h.losses k)
  exact hflag

theorem Confined.watched (h : Confined k R d d') : Watched d d' where
  size := Nat.le_of_eq h.size.symm
  options j _ := by
    by_cases hj : j = k
    · rw [hj, h.options]
    · rw [h.others j hj]
  told := by
    have hothers : ∀ j ≠ k, d'.flagged j = d.flagged j := fun j hj => by
      rw [flagged, h.others j hj, flagged]
    cases h.rings with
    | quiet hflag halarms =>
      refine .inl ⟨fun j => ?_, halarms⟩
      by_cases hj : j = k
      · rw [hj, hflag]
      · exact hothers j hj
    | rung reason _ hdown hup halarms =>
      exact .inr ⟨k, h.size ▸ lt_size_of_flagged hup, reason, hdown, hup, hothers, halarms⟩

theorem Watched.of_collectors (hcollectors : d'.collectors = d.collectors)
    (halarms : d'.alarms = d.alarms) : Watched d d' :=
  (Unpressed.of_collectors hcollectors halarms).watched

/-- **Every operation tells of what it does**, once. -/
theorem Posted.watched_op (h : Posted F d) {o : Op}
    (ho : ∀ k, o.tallies? = some k → k < d.collectors.size) : Watched d (o.apply d) := by
  cases hpresses : o.presses with
  | false => exact (unpressed_op hpresses d).watched
  | true =>
    cases o with
    | call call =>
      cases call with
      | write w em now =>
        rcases session_cases d w with hnone | ⟨s, k, hw, hs⟩
        · obtain ⟨-, hcollectors, halarms⟩ := write_of_none hnone em now
          exact .of_collectors hcollectors halarms
        · exact (confined_write hw hs (h.attached w s k hw hs) em now).watched
      | _ => exact absurd hpresses (by simp [Op.presses])
    | rent k => exact (confined_rent d k).watched
    | offerEvent k => exact (confined_admitEvent d k).watched
    | recordDropped k reason => exact (confined_recordDropped (ho k rfl) reason).1.watched
    | recordRateLimited k => exact (confined_recordRateLimited (ho k rfl)).1.watched
    | holdRoom w =>
      dsimp only [Op.apply]
      split
      · next k _ => exact (confined_holdRoom d w k).watched
      · exact .of_collectors rfl rfl
    | evict k =>
      dsimp only [Op.apply]
      cases hevict : d.evictOldest? k with
      | none => exact .of_collectors rfl rfl
      | some d₁ => exact (confined_evict (R := fun _ => False) hevict).watched
    | _ => exact absurd hpresses (by simp [Op.presses])

theorem Watched.flagged_mono (h : Watched d d') (hup : d.flagged k = true) :
    d'.flagged k = true := by
  rcases h.told with ⟨hflags, -⟩ | ⟨j, -, _, -, hup', hothers, -⟩
  · rw [hflags, hup]
  · by_cases hk : k = j
    · rw [hk, hup']
    · rw [hothers k hk, hup]

/-- The alarm of a session stays what it is. -/
theorem Watched.alarm_eq (h : Watched d d') (hk : k < d.collectors.size) (reason : Reason) :
    d'.alarm k reason = d.alarm k reason := by
  rw [alarm, alarm, h.options k hk]

/-! ## Flags and losses -/

/-- Whether a session has lost something to a limit. -/
def Lost (d : Depot) (k : CollectorId) : Prop := (d.collector k).losses.ToLimits

/-- What becomes of a session's flag and of its losses together: nothing, or
the flag is up and there are some. -/
inductive Squares (k : CollectorId) (d d' : Depot) : Prop
  | still : d'.flagged k = d.flagged k → (d'.Lost k ↔ d.Lost k) → Squares k d d'
  | raised : d'.flagged k = true → d'.Lost k → Squares k d d'

namespace Squares

theorem of_pressing
    (h : (d'.collector k).losses.pressing = (d.collector k).losses.pressing) :
    Squares k d d' := by
  simp only [Losses.pressing, Losses.mk.injEq] at h
  obtain ⟨hevents, hchunks, -, hrate, hflag⟩ := h
  refine .still hflag ?_
  rw [Lost, Losses.ToLimits, hevents, hchunks, hrate, Lost, Losses.ToLimits]

theorem of_collector (h : d'.collector k = d.collector k) : Squares k d d' :=
  of_pressing (by rw [h])

theorem trans (h : Squares k d d') (h' : Squares k d' e) : Squares k d e := by
  cases h' with
  | raised hup hlost => exact .raised hup hlost
  | still hflag hlosses =>
    cases h with
    | raised hup hlost => exact .raised (hflag.trans hup) (hlosses.mpr hlost)
    | still hflag' hlosses' => exact .still (hflag.trans hflag') (hlosses.trans hlosses')

end Squares

/-- Raising the flag counts nothing. -/
theorem lost_signal (d : Depot) (j : CollectorId) (reason : Reason) (k : CollectorId) :
    (d.signal j reason).Lost k ↔ d.Lost k := by
  unfold signal
  dsimp only
  split
  · exact Iff.rfl
  · refine iff_of_eq (congr_modifyCollector (fun s => s.losses.ToLimits) (fun _ => ?_) k)
    rfl

/-- A loss that is signalled squares. -/
theorem squares_signal (hk : k < d.collectors.size) (reason : Reason) (hlost : d.Lost k) :
    Squares k e (d.signal k reason) :=
  .raised (confined_signal hk reason).2 ((lost_signal d k reason k).mpr hlost)

theorem squares_close (d : Depot) (j k : CollectorId) : Squares k d (d.close j) :=
  .of_pressing ((unpressed_close d j).losses k)

theorem squares_recordDropped (hk : k < d.collectors.size) (reason : Reason) :
    Squares k e (d.recordDropped k reason) := by
  refine squares_signal (by rwa [Depot.modifyCollector, Array.size_modify]) reason ?_
  rw [Lost, collector_modifyCollector hk]
  exact .inl (Nat.succ_pos _)

theorem squares_recordRateLimited (hk : k < d.collectors.size) :
    Squares k e (d.recordRateLimited k) := by
  refine squares_signal (by rwa [Depot.modifyCollector, Array.size_modify]) .rateLimit ?_
  rw [Lost, collector_modifyCollector hk]
  exact .inr (.inr (Nat.succ_pos _))

theorem squares_enterChunk (d : Depot) (j k : CollectorId) : Squares k d (d.enterChunk j).2 :=
  .of_pressing (by rw [collector_enterChunk])

/-! ### Evictions -/

theorem droppedChunks_evict (hevict : d.evictOldest? k = some d') :
    (d'.collector k).losses.droppedChunks = (d.collector k).losses.droppedChunks + 1 := by
  obtain ⟨c, pre, post, -, -, hgiven, -⟩ := collector_evictOldest? hevict
  rw [hgiven]
  rfl

/-- Room for a chunk is made at the cost of one at least. -/
theorem droppedChunks_makeChunkRoom {n : Nat} (h : makeChunkRoom n d k = (true, d')) :
    (d.collector k).losses.droppedChunks < (d'.collector k).losses.droppedChunks := by
  induction n generalizing d with
  | zero => simp [makeChunkRoom] at h
  | succ n ih =>
    unfold makeChunkRoom at h
    split at h
    · simp at h
    · next d₁ hevict =>
      have hone := droppedChunks_evict hevict
      split at h
      · simp only [Prod.mk.injEq, true_and] at h
        rw [← h]
        omega
      · have := ih h
        omega

/-- Room for an event is there, or is made at the cost of a chunk. -/
theorem droppedChunks_makeEventRoom (n : Nat) (d : Depot) (k : CollectorId) :
    makeEventRoom n d k = d ∨ (d.collector k).losses.droppedChunks <
      ((makeEventRoom n d k).collector k).losses.droppedChunks := by
  induction n generalizing d with
  | zero => exact .inl rfl
  | succ n ih =>
    unfold makeEventRoom
    split
    · exact .inl rfl
    · cases hevict : d.evictOldest? k with
      | none => exact .inl rfl
      | some d₁ =>
        have hone := droppedChunks_evict hevict
        dsimp only
        rcases ih d₁ with hsame | hmore
        · rw [hsame]
          exact .inr (by omega)
        · exact .inr (by omega)

/-! ### Rentals -/

/-- **A chunk that is rented squares**: at the cap it was paid for. -/
theorem squares_rentChunk (h : d.rentChunk k = (some c, d')) : Squares k d d' := by
  unfold rentChunk at h
  split at h
  · simp at h
  · split at h
    · simp only [Prod.mk.injEq, Option.some.injEq] at h
      rw [← h.2]
      exact squares_enterChunk d k k
    · next hfull =>
      have hk : k < d.collectors.size :=
        lt_size_of_atCap .maxTotalChunks ((Bool.not_eq_true _).mp hfull)
      unfold rentAtCap at h
      split at h
      · simp at h
      · simp at h
      · have hthinned := confined_makeChunkRoom (R := fun _ => False)
          (d.collector k).ledger.length d k
        split at h
        · simp at h
        · next thinned hroom =>
          rw [hroom] at hthinned
          have hentered := hthinned.then_quiet (confined_enterChunk thinned k)
          have hpaid := droppedChunks_makeChunkRoom hroom
          simp only [Prod.mk.injEq, Option.some.injEq] at h
          rw [← h.2]
          refine squares_signal (hentered.size.symm ▸ hk) _ (.inr (.inl ?_))
          rw [collector_enterChunk]
          exact Nat.zero_lt_of_lt hpaid

/-- A rental by hand of an open session squares, or it is refused, and then the
flag is up. -/
theorem squares_rent (d : Depot) (k : CollectorId) :
    Squares k d (d.rent k).2 ∨ (d.collector k).closed = false ∧ (d.rent k).1 = none := by
  cases hclosed : (d.collector k).closed with
  | true =>
    have hshut : d.rent k = (none, d) := by simp [rent, rentChunk, hclosed]
    rw [hshut]
    exact .inl (.of_collector rfl)
  | false =>
    unfold rent
    split
    · exact .inr ⟨rfl, rfl⟩
    · next hrent => exact .inl ((squares_rentChunk hrent).trans (.of_collector rfl))

theorem flagged_of_rent_none (hopen : (d.collector k).closed = false) (h : (d.rent k).1 = none) :
    (d.rent k).2.flagged k = true := by
  unfold rent at h ⊢
  split
  · next hrent => exact flagged_of_rentChunk_none hopen hrent
  · next hrent =>
    rw [hrent] at h
    simp at h

/-! ### Writes -/

/-- **An admission squares**, whatever comes of it. -/
theorem squares_admitEvent (d : Depot) (k : CollectorId) : Squares k d (d.admitEvent k).2 := by
  have hcount : ∀ e : Depot, Squares k e (e.modifyCollector k Collector.countEvent) := fun e => by
    refine .of_pressing (congr_modifyCollector (fun s => s.losses.pressing) (fun _ => ?_) k)
    rfl
  unfold admitEvent
  dsimp only
  split
  · exact .of_collector rfl
  · split
    · exact hcount d
    · next hfull =>
      rw [Bool.not_eq_true] at hfull
      have hk : k < d.collectors.size := lt_size_of_atCap .maxTotalEvents hfull
      split
      · exact squares_recordDropped hk _
      · exact (squares_recordDropped hk _).trans (squares_close _ k k)
      · have hthinned := confined_makeEventRoom (R := fun _ => False)
          (d.collector k).ledger.length d k
        have hpaid := droppedChunks_makeEventRoom (d.collector k).ledger.length d k
        split
        · next hroom =>
          -- there is room now and there was none, so a chunk was given up
          have hchunks : 0 < ((makeEventRoom (d.collector k).ledger.length d k).collector
              k).losses.droppedChunks := by
            rcases hpaid with hsame | hmore
            · rw [hsame, hfull] at hroom
              exact absurd hroom (by simp)
            · exact Nat.zero_lt_of_lt hmore
          have hlt : k < (makeEventRoom (d.collector k).ledger.length d k).collectors.size :=
            hthinned.size.symm ▸ hk
          refine squares_signal (by rwa [Depot.modifyCollector, Array.size_modify]) _ ?_
          rw [Lost, collector_modifyCollector hlt]
          exact .inr (.inl hchunks)
        · exact squares_recordDropped (hthinned.size.symm ▸ hk) _

theorem squares_letGo (d : Depot) (w : WriterId) (j k : CollectorId) :
    Squares k d (d.letGo w j) := .of_pressing ((unpressed_letGo d w j).losses k)

/-- Room that is found squares. -/
theorem squares_holdRoom (h : d.holdRoom w k = (true, d')) : Squares k d d' := by
  have hrenewed : d.renewChunk w k = (true, d') → Squares k d d' := by
    intro hrenew
    unfold renewChunk at hrenew
    split at hrenew
    · simp at hrenew
    · next hrent =>
      simp only [Prod.mk.injEq, true_and] at hrenew
      rw [← hrenew]
      exact ((squares_letGo d w k k).trans (squares_rentChunk hrent)).trans (.of_collector rfl)
  unfold holdRoom at h
  split at h
  · split at h
    · exact hrenewed h
    · simp only [Prod.mk.injEq, true_and] at h
      rw [← h]
      exact .of_collector rfl
  · exact hrenewed h

/-- **Placing an event squares**: a refusal at the chunk cap has raised the
flag, and the event is counted after it. -/
theorem squares_place (w : WriterId) (hopen : (d.collector k).closed = false) (em : Emission)
    (stamp : Int) : Squares k d (d.place w k em stamp).2 := by
  unfold place
  cases hroom : d.holdRoom w k with
  | mk ok d₁ =>
    cases ok with
    | false =>
      exact squares_recordDropped (lt_size_of_flagged (flagged_of_holdRoom_false hopen hroom)) _
    | true =>
      have hheld := squares_holdRoom hroom
      have hadmitted := hheld.trans (squares_admitEvent d₁ k)
      dsimp only
      cases hoffer : d₁.admitEvent k with
      | mk ok d₂ =>
        rw [hoffer] at hadmitted
        cases ok with
        | false => exact hadmitted
        | true =>
          refine hadmitted.trans (.of_collector ?_)
          exact collector_append d₂ w em stamp k

/-- **A write squares.** -/
theorem squares_write (hw : d.writer? w = some s) (hs : s.collector = some k)
    (hk : k < d.collectors.size) (em : Emission) (now : Reading) :
    Squares k d (d.write w em now).2 := by
  rcases reaches_cases hw hs with hreach | hreach
  · rw [write_of_not_reaches hreach]
    exact .of_pressing ((unpressed_detach d w).losses k)
  · have hopen : (d.collector k).closed = false := open_of_reaches hreach
    rw [write_of_reaches hreach hw]
    generalize s.screen.screen em.id em.kind now.arrival = screened
    obtain ⟨verdict, screen⟩ := screened
    have hscreened : Squares k d (d.rescreen w screen) := .of_collector rfl
    refine hscreened.trans ?_
    cases verdict with
    | filtered => exact .of_collector rfl
    | sampledOut =>
      refine .of_pressing (congr_modifyCollector (d := d.rescreen w screen)
        (fun s => s.losses.pressing) (fun _ => ?_) k)
      rfl
    | rateLimited => exact squares_recordRateLimited (d := d.rescreen w screen) hk
    | passed => exact squares_place (d := d.rescreen w screen) w hopen em now.stamp

/-! ### Operations -/

/-- **Every operation squares**, but for a rental by hand that is refused. -/
theorem Posted.squares_op (h : Posted F d) {o : Op} (ho : o.isStage = false)
    (htallies : ∀ k, o.tallies? = some k → k < d.collectors.size) (k : CollectorId) :
    Squares k d (o.apply d) ∨
      o = .rent k ∧ (d.collector k).closed = false ∧ (d.rent k).1 = none := by
  have hother : ∀ {j e R}, Confined j R d e → k ≠ j → Squares k d e := fun hconfined hk =>
    .of_collector (hconfined.others k hk)
  cases hpresses : o.presses with
  | false => exact .inl (.of_pressing ((unpressed_op hpresses d).losses k))
  | true =>
    cases o with
    | call call =>
      cases call with
      | write w em now =>
        refine .inl ?_
        rcases session_cases d w with hnone | ⟨s, j, hw, hs⟩
        · refine .of_collector ?_
          dsimp only [Op.apply, Call.apply]
          rw [collector, (write_of_none hnone em now).2.1, collector]
        · have hj : j < d.collectors.size := h.attached w s j hw hs
          by_cases hk : k = j
          · subst hk
            exact squares_write hw hs hj em now
          · exact hother (confined_write hw hs hj em now) hk
      | _ => exact absurd hpresses (by simp [Op.presses])
    | rent j =>
      by_cases hk : k = j
      · subst hk
        exact (squares_rent d k).imp_right fun hrefused => ⟨rfl, hrefused⟩
      · exact .inl (hother (confined_rent d j) hk)
    | offerEvent j =>
      by_cases hk : k = j
      · subst hk
        exact .inl (squares_admitEvent d k)
      · exact .inl (hother (confined_admitEvent d j) hk)
    | recordDropped j reason =>
      have hj : j < d.collectors.size := htallies j rfl
      by_cases hk : k = j
      · subst hk
        exact .inl (squares_recordDropped hj reason)
      · exact .inl (hother (confined_recordDropped hj reason).1 hk)
    | recordRateLimited j =>
      have hj : j < d.collectors.size := htallies j rfl
      by_cases hk : k = j
      · subst hk
        exact .inl (squares_recordRateLimited hj)
      · exact .inl (hother (confined_recordRateLimited hj).1 hk)
    | holdRoom w => exact absurd ho (by simp [Op.isStage])
    | evict j => exact absurd ho (by simp [Op.isStage])
    | _ => exact absurd hpresses (by simp [Op.presses])

end Depot

/-! ## Runs -/

variable {capacity : Nat} {ops : List Op} {o : Op} {k : CollectorId}

theorem Addressed.of_concat (h : Addressed capacity (ops ++ [o])) : Addressed capacity ops := by
  intro before o' after k heq
  refine h before o' (after ++ [o]) k ?_
  rw [heq, List.append_assoc, List.cons_append]

theorem Addressed.last (h : Addressed capacity (ops ++ [o])) (k : CollectorId)
    (hk : o.tallies? = some k) : k < (runOps capacity ops).collectors.size :=
  h ops o [] k rfl hk

/-- Where no loss is counted by hand there is nothing to ask. -/
theorem addressed_of_untallied (h : ∀ o ∈ ops, o.tallies? = none) : Addressed capacity ops := by
  intro before o after k heq hk
  have hin : o ∈ ops := by
    rw [heq]
    exact List.mem_append_right _ List.mem_cons_self
  rw [h o hin] at hk
  exact absurd hk (by simp)

/-- **Every step of a run is told of** as it should be. -/
theorem Addressed.watched (h : Addressed capacity (ops ++ [o])) :
    Watched (runOps capacity ops) (runOps capacity (ops ++ [o])) := by
  obtain ⟨F, G, hstocked⟩ := exists_stocked_runOps capacity ops
  rw [runOps_concat]
  exact hstocked.watched_op h.last

/-- **What is told in a run**: one alarm for each session that has overflowed,
and no other, in the order in which they did. -/
theorem exists_raised_runOps (h : Addressed capacity ops) :
    ∃ raised : List (CollectorId × Reason), (raised.map Prod.fst).Nodup ∧
      (∀ k, k ∈ raised.map Prod.fst ↔ (runOps capacity ops).flagged k = true) ∧
      (runOps capacity ops).alarms = raised.map fun p => (runOps capacity ops).alarm p.1 p.2 := by
  induction ops using List.reverseRecOn with
  | nil =>
    refine ⟨[], List.nodup_nil, fun k => ?_, rfl⟩
    have hdown : (runOps capacity []).flagged k = false := by
      rw [runOps, List.foldl_nil, flagged, collector_of_ge (Nat.zero_le k)]
      rfl
    simp [hdown]
  | append_singleton ops o ih =>
    obtain ⟨raised, hnodup, hflags, halarms⟩ := ih h.of_concat
    have hwatched := h.watched
    have hsame : (raised.map fun p => (runOps capacity (ops ++ [o])).alarm p.1 p.2) =
        raised.map fun p => (runOps capacity ops).alarm p.1 p.2 := by
      refine List.map_congr_left fun p hp => ?_
      have hup := (hflags p.1).mp (List.mem_map_of_mem hp)
      exact hwatched.alarm_eq (lt_size_of_flagged hup) p.2
    rcases hwatched.told with ⟨hstill, hquiet⟩ |
      ⟨k, hk, reason, hdown, hup, hothers, hrung⟩
    · refine ⟨raised, hnodup, fun j => ?_, ?_⟩
      · rw [hstill, hflags]
      · rw [hquiet, halarms, hsame]
    · have hnew : k ∉ raised.map Prod.fst := fun hin =>
        absurd (((hflags k).mp hin).symm.trans hdown) (by simp)
      refine ⟨raised ++ [(k, reason)], ?_, fun j => ?_, ?_⟩
      · rw [List.map_append, List.nodup_append]
        refine ⟨hnodup, List.nodup_singleton _, fun j hj i hi heq => ?_⟩
        rw [heq, List.mem_singleton.mp hi] at hj
        exact hnew hj
      · by_cases hj : j = k
        · simp [hj, hup]
        · rw [hothers j hj, ← hflags]
          simp [hj]
      · rw [hrung, halarms, List.map_append, hsame, List.map_singleton,
          hwatched.alarm_eq hk]

theorem refused_concat : Refused capacity (ops ++ [o]) k ↔ Refused capacity ops k ∨
    o = .rent k ∧ ((runOps capacity ops).collector k).closed = false ∧
      ((runOps capacity ops).rent k).1 = none := by
  constructor
  · rintro ⟨before, after, heq, hrefused⟩
    rcases List.eq_nil_or_concat after with rfl | ⟨after, last, rfl⟩
    · obtain ⟨rfl, hlast⟩ := List.append_inj' heq rfl
      exact .inr ⟨List.head_eq_of_cons_eq hlast, hrefused⟩
    · rw [List.concat_eq_append, ← List.cons_append, ← List.append_assoc] at heq
      exact .inl ⟨before, after, (List.append_inj' heq rfl).1, hrefused⟩
  · rintro (⟨before, after, heq, hrefused⟩ | ⟨rfl, hrefused⟩)
    · refine ⟨before, after ++ [o], ?_, hrefused⟩
      rw [heq, List.append_assoc, List.cons_append]
    · exact ⟨ops, [], rfl, hrefused⟩

/-- **The flag is true to the losses**: it is up where something was lost to a
limit, or a chunk was refused by hand, and only there. -/
theorem flagged_runOps (h : Addressed capacity ops) (hwhole : ∀ o ∈ ops, o.isStage = false)
    (k : CollectorId) : (runOps capacity ops).flagged k = true ↔
      (runOps capacity ops).Lost k ∨ Refused capacity ops k := by
  induction ops using List.reverseRecOn with
  | nil =>
    have hnew : (runOps capacity []).collector k = default := collector_of_ge (Nat.zero_le k)
    have hnone : ¬ Refused capacity [] k := by
      rintro ⟨before, after, heq, -⟩
      simp at heq
    simp only [flagged, Lost, hnew, hnone, or_false]
    decide
  | append_singleton ops o ih =>
    have hih := ih h.of_concat fun o' ho' => hwhole o' (List.mem_append_left _ ho')
    obtain ⟨F, G, hstocked⟩ := exists_stocked_runOps capacity ops
    have hsquares := hstocked.squares_op
      (hwhole o (List.mem_append_right _ (List.mem_singleton.mpr rfl))) h.last k
    rw [runOps_concat, refused_concat]
    -- the flag stays up, and a refusal has raised it
    have hstays : Refused capacity ops k → (o.apply (runOps capacity ops)).flagged k = true :=
      fun hrefused =>
        runOps_concat capacity ops o ▸ h.watched.flagged_mono (hih.mpr (.inr hrefused))
    have hraises : (o = .rent k ∧ ((runOps capacity ops).collector k).closed = false ∧
        ((runOps capacity ops).rent k).1 = none) →
        (o.apply (runOps capacity ops)).flagged k = true := by
      rintro ⟨rfl, hopen, hnone⟩
      exact flagged_of_rent_none hopen hnone
    rcases hsquares with (⟨hflag, hlosses⟩ | ⟨hup, hlost⟩) | hrefused
    · rw [hlosses]
      refine ⟨fun hup => ?_, ?_⟩
      · exact (hih.mp (hflag ▸ hup)).imp_right .inl
      · rintro (hlost | hbefore | hnow)
        · rw [hflag, hih]
          exact .inl hlost
        · exact hstays hbefore
        · exact hraises hnow
    · exact iff_of_true hup (.inl hlost)
    · exact iff_of_true (hraises hrefused) (.inr (.inr hrefused))

end EventTrace
