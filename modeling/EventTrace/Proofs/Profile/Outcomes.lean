import EventTrace.Proofs.Durations.Lockstep
import EventTrace.Proofs.Profile.Schedule
/-!
# Profile — every begin and every end has one outcome

A begin opens a frame, and a frame is closed by an end, taken off by an end
that comes less than no time after its begin, abandoned, or left open. An end
takes a frame, finds none, or is dropped by a strict match. So a report
accounts for the begins and the ends that were replayed (`scopes_accounted`):
one event's outcome says what it did to the frames of its thread
(`Outcome.Settles`), and a replay files the outcomes one by one
(`Replay.Accounted.apply`).
-/

namespace EventTrace

/-! ## Damage, kind by kind -/

namespace Anomalies

variable (a b : Anomalies)

@[simp] theorem unmatchedBegin_add : (a + b).unmatchedBegin = a.unmatchedBegin + b.unmatchedBegin :=
  rfl

@[simp] theorem unmatchedEnd_add : (a + b).unmatchedEnd = a.unmatchedEnd + b.unmatchedEnd := rfl

@[simp] theorem mismatchedEnd_add : (a + b).mismatchedEnd = a.mismatchedEnd + b.mismatchedEnd := rfl

@[simp] theorem invalidDurations_add :
    (a + b).invalidDurations = a.invalidDurations + b.invalidDurations := rfl

/-- The ends that came to nothing: those that found no frame, and, where
matching is strict, the mismatched ones. -/
def lostEnds (strict : Bool) (a : Anomalies) : Nat :=
  a.unmatchedEnd + if strict then a.mismatchedEnd else 0

theorem lostEnds_add (strict : Bool) :
    (a + b).lostEnds strict = a.lostEnds strict + b.lostEnds strict := by
  cases strict with
  | false => rfl
  | true =>
    simp only [lostEnds, if_true, unmatchedEnd_add, mismatchedEnd_add]
    omega

/-- A search that goes past a frame ends in an abandoned frame or in an end
that found none. -/
def Searched (strict : Bool) (a : Anomalies) : Prop :=
  strict = false → a.mismatchedEnd ≤ a.unmatchedBegin + a.unmatchedEnd

variable {a b}

theorem Searched.add {strict : Bool} (ha : a.Searched strict) (hb : b.Searched strict) :
    (a + b).Searched strict := by
  intro hstrict
  have := ha hstrict
  have := hb hstrict
  simp only [unmatchedBegin_add, unmatchedEnd_add, mismatchedEnd_add]
  omega

end Anomalies

/-! ## One end -/

namespace Nesting

variable {α : Type}

/-- What a closing says of an end and of the frames it met. -/
structure Settles (strict : Bool) (id : Int) (frames : List (Frame α)) (c : Closing α) : Prop where
  /-- Of the frames the end met, those gone were matched or abandoned. -/
  frames : frames.length = c.anomalies.unmatchedBegin +
    (c.matched.elim frames.length fun m => m.below.length + 1)
  /-- An end that matches no frame is lost. -/
  ends : c.matched.toList.length + c.anomalies.lostEnds strict = 1
  /-- A mismatch is told with the id it did not have. -/
  told : c.expected.toList.length = c.anomalies.mismatchedEnd
  differs : ∀ expected ∈ c.expected, expected ≠ id
  searched : c.anomalies.Searched strict

/-- **An end is matched or lost**, whatever the frames it meets. -/
theorem settles_close (strict : Bool) (id : Int) (frames : List (Frame α)) :
    Settles strict id frames (close strict id frames) := by
  cases frames with
  | nil => exact ⟨rfl, by cases strict <;> rfl, rfl, by simp [close], fun _ => Nat.zero_le _⟩
  | cons top below =>
    by_cases htop : top.id = id
    · rw [close, if_pos htop]
      exact ⟨(Nat.zero_add _).symm, by cases strict <;> rfl, rfl, by simp, fun _ => Nat.zero_le _⟩
    · rw [close, if_neg htop]
      have hdiffers : ∀ expected ∈ some top.id, expected ≠ id := by simpa using htop
      cases strict with
      | true => exact ⟨(Nat.zero_add _).symm, rfl, rfl, hdiffers, fun h => absurd h (by simp)⟩
      | false =>
        rw [if_neg Bool.false_ne_true]
        cases hnearest : nearest? id below with
        | none => exact ⟨(Nat.zero_add _).symm, rfl, rfl, hdiffers, fun _ => Nat.le_refl _⟩
        | some m =>
          -- the frames above the match are abandoned, the innermost one with them
          have hlength : below.length = m.abandoned.length + (m.below.length + 1) := by
            rw [(eq_of_nearest? hnearest).1, List.length_append, List.length_reverse,
              List.length_cons]
          refine ⟨?_, rfl, rfl, hdiffers, fun _ => Nat.le_add_left _ _⟩
          simp only [List.length_cons, Option.elim_some]
          omega

end Nesting

/-! ## One event -/

namespace Outcome

/-- The scopes that closed, one or none. -/
def closedCount (o : Outcome) : Nat := o.closed.toList.length

/-- What the outcome of an event says of a thread that had some frames open
before it and has others after it. -/
structure Settles (strict : Bool) (e : Event) (before after : Nat) (o : Outcome) : Prop where
  /-- A frame that is gone was closed, closed before it began, or abandoned. -/
  begins : after + o.closedCount + o.anomalies.invalidDurations + o.anomalies.unmatchedBegin =
    before + if e.kind == .scopeBegin then 1 else 0
  /-- An end that closed nothing is lost. -/
  ends : o.closedCount + o.anomalies.invalidDurations + o.anomalies.lostEnds strict =
    if e.kind == .scopeEnd then 1 else 0
  told : o.mismatch.toList.length = o.anomalies.mismatchedEnd
  differs : ∀ m ∈ o.mismatch, m.expected ≠ m.actual
  searched : o.anomalies.Searched strict

/-- An event that finds no damage and closes nothing. -/
theorem settles_quiet {strict : Bool} {e : Event} {before after : Nat}
    (hbegins : after = before + if e.kind == .scopeBegin then 1 else 0)
    (hend : (e.kind == .scopeEnd) = false) : Settles strict e before after {} where
  begins := hbegins
  ends := by rw [hend]; cases strict <;> rfl
  told := rfl
  differs := by simp
  searched := fun _ => Nat.zero_le _

end Outcome

namespace ThreadState

variable {s : ThreadState} {e : Event}

theorem length_frames_finish (s : ThreadState) (e : Event) (m : Match Pending) :
    (s.finish e m).1.frames.length = m.below.length := by
  have hbare := congrArg List.length (s.bareFrames_finish e m)
  simpa only [bareFrames, List.length_map] using hbare

/-- A frame that was matched is closed, or its end comes less than no time
after its begin. -/
theorem closed_or_invalid (s : ThreadState) (e : Event) (m : Match Pending) :
    (s.finish e m).2.closedCount + (s.finish e m).2.anomalies.invalidDurations = 1 := by
  unfold finish
  dsimp only
  split
  · rfl
  · rfl

/-- **An end does what its closing says.** -/
theorem settles_close (strict : Bool) (s : ThreadState) (hend : e.kind = .scopeEnd) :
    (s.close strict e).2.Settles strict e s.frames.length (s.close strict e).1.frames.length := by
  have hclosing := Nesting.settles_close strict e.id s.frames
  have hvalid := Nesting.invalidDurations_close strict e.id s.frames
  unfold close
  generalize Nesting.close strict e.id s.frames = c at hclosing hvalid
  obtain ⟨hframes, hends, htold, hdiffers, hsearched⟩ := hclosing
  have htold' : (c.expected.map fun expected =>
      (⟨e.thread, expected, e.id, e.timestamp⟩ : Mismatch)).toList.length =
        c.anomalies.mismatchedEnd := by
    rw [← htold]
    cases c.expected <;> rfl
  have hdiffers' : ∀ m ∈ c.expected.map fun expected =>
      (⟨e.thread, expected, e.id, e.timestamp⟩ : Mismatch), m.expected ≠ m.actual := by
    intro m hm
    obtain ⟨expected, hexpected, rfl⟩ := Option.mem_map.mp hm
    exact hdiffers expected hexpected
  have hbegin : (e.kind == .scopeBegin) = false := by
    rw [hend]
    rfl
  have hended : (e.kind == .scopeEnd) = true := by
    rw [hend]
    rfl
  cases hmatched : c.matched with
  | none =>
    simp only [hmatched, Option.elim_none, Option.toList_none, List.length_nil] at hframes hends
    simp only [hmatched]
    refine ⟨?_, ?_, htold', hdiffers', hsearched⟩
    · rw [hbegin]
      show s.frames.length + 0 + c.anomalies.invalidDurations + c.anomalies.unmatchedBegin = _
      simp only [Bool.false_eq_true, if_false]
      omega
    · rw [hended]
      show 0 + c.anomalies.invalidDurations + c.anomalies.lostEnds strict = _
      simp only [if_true]
      omega
  | some m =>
    simp only [hmatched, Option.elim_some, Option.toList_some, List.length_singleton]
      at hframes hends
    obtain ⟨-, hnested⟩ := s.finish_spec e m
    have hone := s.closed_or_invalid e m
    have hbelow := s.length_frames_finish e m
    simp only [hmatched]
    generalize s.finish e m = done at hnested hone hbelow
    have hlost : done.2.anomalies.lostEnds strict = 0 := by
      simp [Anomalies.lostEnds, hnested.unmatchedEnd, hnested.mismatchedEnd]
    refine ⟨?_, ?_, ?_, hdiffers', hsearched.add fun _ => ?_⟩
    · rw [hbegin, Anomalies.invalidDurations_add, Anomalies.unmatchedBegin_add,
        hnested.unmatchedBegin, hbelow]
      show m.below.length + done.2.closedCount + _ + _ = _
      simp only [Bool.false_eq_true, if_false]
      omega
    · rw [hended, Anomalies.invalidDurations_add, Anomalies.lostEnds_add]
      show done.2.closedCount + _ + _ = _
      simp only [if_true]
      omega
    · rw [Anomalies.mismatchedEnd_add, hnested.mismatchedEnd]
      exact htold'
    · rw [hnested.mismatchedEnd]
      exact Nat.zero_le _

/-- **An event does what its outcome says.** -/
theorem settles_step (strict : Bool) (s : ThreadState) (e : Event) :
    (s.step strict e).2.Settles strict e s.frames.length (s.step strict e).1.frames.length := by
  unfold step
  split
  · next hkind => exact Outcome.settles_quiet (by rw [hkind]; rfl) (by rw [hkind]; rfl)
  · next hkind => exact settles_close strict s hkind
  · next hbegin hend =>
    have hneither : ∀ k, e.kind ≠ k → (e.kind == k) = false := fun _ h => beq_eq_false_iff_ne.mpr h
    exact Outcome.settles_quiet (by rw [hneither _ hbegin]; rfl) (hneither _ hend)

end ThreadState

/-! ## All events -/

namespace Hotspots

/-- The closed scopes of all rows. -/
def scopes (h : Hotspots) : Nat := (h.ids.values.map IdTotals.count).sum

theorem scopes_record (h : Hotspots) (scope : ClosedScope) :
    (h.record scope).scopes = h.scopes + 1 := by
  have hsum := Table.sum_values_alter IdTotals.count h.ids scope.id
    (fun totals => (totals.getD {}).add scope) {} rfl
  have hadded : (((h.ids.get? scope.id).getD {}).add scope).count =
      ((h.ids.get? scope.id).getD {}).count + 1 := rfl
  rw [hadded] at hsum
  show ((h.ids.alter scope.id _).values.map IdTotals.count).sum =
    (h.ids.values.map IdTotals.count).sum + 1
  omega

theorem scopes_recordAny (h : Hotspots) (closed : Option ClosedScope) :
    (h.recordAny closed).scopes = h.scopes + closed.toList.length := by
  cases closed with
  | none => rfl
  | some scope => exact h.scopes_record scope

/-- The rows as reported count the same scopes. -/
theorem sum_count_report (h : Hotspots) (rate : TickRate) (metadata : Option Provider) :
    ((h.report rate metadata).map HotspotRow.count).sum = h.scopes := by
  rw [report, List.map_map, scopes, Table.values, List.map_map]
  exact ((rankBy_perm _ _).map _).sum_eq

end Hotspots

namespace Replay

/-- The begins among some events. -/
def begins (events : List Event) : Nat := events.countP (·.kind == .scopeBegin)

/-- The ends among some events. -/
def ends (events : List Event) : Nat := events.countP (·.kind == .scopeEnd)

/-- A scope event is a begin or an end. -/
theorem countP_isScope (events : List Event) :
    events.countP (·.kind.isScope) = begins events + ends events := by
  rw [begins, ends]
  induction events with
  | nil => rfl
  | cons e rest ih =>
    rw [List.countP_cons, List.countP_cons, List.countP_cons, ih]
    have hkind : (if e.kind.isScope = true then 1 else 0) =
        (if (e.kind == .scopeBegin) = true then 1 else 0) +
          if (e.kind == .scopeEnd) = true then 1 else 0 := by
      cases e.kind <;> rfl
    omega

/-- What a replay has filed accounts for the begins and ends it replayed. -/
structure Accounted (strict : Bool) (events : List Event) (r : Replay) : Prop where
  begins : r.openFrames + r.hotspots.scopes + r.anomalies.invalidDurations +
    r.anomalies.unmatchedBegin = begins events
  ends : r.hotspots.scopes + r.anomalies.invalidDurations + r.anomalies.lostEnds strict =
    ends events
  told : r.mismatches.size = r.anomalies.mismatchedEnd
  differs : ∀ m ∈ r.mismatches, m.expected ≠ m.actual
  searched : r.anomalies.Searched strict

namespace Accounted

variable {strict : Bool} {events : List Event} {r : Replay}

theorem empty : Accounted strict [] {} where
  begins := rfl
  ends := by cases strict <;> rfl
  told := rfl
  differs := by simp
  searched := fun _ => Nat.zero_le _

/-- **An event is accounted for as it is filed.** -/
theorem apply (h : r.Accounted strict events) (e : Event) :
    (r.apply strict e).Accounted strict (events ++ [e]) := by
  have hsettles := (r.stateOf e.thread).settles_step strict e
  have hopen := r.openFrames_apply strict e
  have hscopes : (r.apply strict e).hotspots.scopes =
      r.hotspots.scopes + ((r.stateOf e.thread).step strict e).2.closedCount :=
    r.hotspots.scopes_recordAny _
  have hdamage : (r.apply strict e).anomalies =
      r.anomalies + ((r.stateOf e.thread).step strict e).2.anomalies := rfl
  have htold : (r.apply strict e).mismatches =
      ((r.stateOf e.thread).step strict e).2.mismatch.elim r.mismatches r.mismatches.push := rfl
  generalize (r.stateOf e.thread).step strict e = stepped at hsettles hopen hscopes hdamage htold
  refine ⟨?_, ?_, ?_, ?_, ?_⟩
  · have hbegins := h.begins
    have hone := hsettles.begins
    rw [Replay.begins] at hbegins ⊢
    rw [hscopes, hdamage, List.countP_append, List.countP_singleton, ← hbegins]
    simp only [Anomalies.invalidDurations_add, Anomalies.unmatchedBegin_add]
    omega
  · have hends := h.ends
    have hone := hsettles.ends
    rw [Replay.ends] at hends ⊢
    rw [hscopes, hdamage, Anomalies.lostEnds_add, List.countP_append, List.countP_singleton,
      ← hends]
    simp only [Anomalies.invalidDurations_add]
    omega
  · rw [htold, hdamage, Anomalies.mismatchedEnd_add, ← hsettles.told, ← h.told]
    cases stepped.2.mismatch with
    | none => rfl
    | some m => exact Array.size_push _
  · intro m hm
    rw [htold] at hm
    cases hmismatch : stepped.2.mismatch with
    | none =>
      rw [hmismatch] at hm
      exact h.differs m hm
    | some last =>
      rw [hmismatch] at hm
      rcases Array.mem_push.mp hm with hm | rfl
      · exact h.differs m hm
      · exact hsettles.differs m hmismatch
  · rw [hdamage]
    exact h.searched.add hsettles.searched

theorem run (strict : Bool) (events : List Event) :
    (run strict events).Accounted strict events := by
  induction events using List.reverseRecOn with
  | nil => exact empty
  | append_singleton events e ih =>
    rw [run_append]
    exact ih.apply e

end Accounted

end Replay

/-- **Every begin and every end is accounted for.** In every profile, strict
or not: with the scopes that the rows count and those of invalid durations,
the begins are the closed scopes and the unmatched begins, the ends are the
closed scopes and the unmatched ends, and, under strict matching, the
mismatched ends; the scope events are the two together. A mismatched end is
told of once if its recording asks for that, with two ids that differ; and
where matching searches on, each one has an unmatched begin or an unmatched
end to itself. -/
theorem scopes_accounted (r : Recording) (o : ProfileOptions) :
    let p := r.profile o
    let begins := Replay.begins (r.profiledEvents o)
    let ends := Replay.ends (r.profiledEvents o)
    let closed := (p.hotspots.map HotspotRow.count).sum + p.anomalies.invalidDurations
    begins = closed + p.anomalies.unmatchedBegin ∧
    (o.strict = false → ends = closed + p.anomalies.unmatchedEnd ∧
      p.anomalies.mismatchedEnd ≤ p.anomalies.unmatchedBegin + p.anomalies.unmatchedEnd) ∧
    (o.strict = true → ends = closed + p.anomalies.unmatchedEnd + p.anomalies.mismatchedEnd) ∧
    p.scopeEvents = begins + ends ∧
    p.told.length = (if r.options.tellsMismatch then p.anomalies.mismatchedEnd else 0) ∧
    ∀ m ∈ p.told, m.expected ≠ m.actual := by
  intro p begins ends closed
  have haccounted := Replay.Accounted.run o.strict (r.profiledEvents o)
  generalize hreplay : Replay.run o.strict (r.profiledEvents o) = replay at haccounted
  have hrows : (p.hotspots.map HotspotRow.count).sum = replay.hotspots.scopes := by
    rw [← hreplay]
    exact Hotspots.sum_count_report _ _ _
  have hdamage : p.anomalies =
      replay.anomalies + { unmatchedBegin := replay.openFrames } := by
    rw [← hreplay]
    exact Replay.totalAnomalies_eq _
  have htold : p.told = r.told replay.mismatches := by
    rw [← hreplay]
    rfl
  have hscopes : p.scopeEvents = begins + ends := by
    rw [← Replay.countP_isScope, ← Replay.scopeEvents_run o.strict]
    rfl
  have hbegins : begins = closed + p.anomalies.unmatchedBegin := by
    have hall := haccounted.begins
    simp only [closed, begins, hrows, hdamage, Anomalies.invalidDurations_add,
      Anomalies.unmatchedBegin_add]
    omega
  have hends : ends = closed + p.anomalies.lostEnds o.strict := by
    have hall := haccounted.ends
    -- what is left open is no end
    have hopen : ({ unmatchedBegin := replay.openFrames } : Anomalies).lostEnds o.strict = 0 := by
      cases o.strict <;> rfl
    simp only [closed, ends, hrows, hdamage, Anomalies.invalidDurations_add,
      Anomalies.lostEnds_add, hopen]
    omega
  refine ⟨hbegins, fun hstrict => ⟨?_, ?_⟩, fun hstrict => ?_, hscopes, ?_, ?_⟩
  · rw [hends, Anomalies.lostEnds, hstrict]
    rfl
  · have hsearched := haccounted.searched hstrict
    simp only [hdamage, Anomalies.mismatchedEnd_add, Anomalies.unmatchedBegin_add,
      Anomalies.unmatchedEnd_add]
    omega
  · rw [hends, Anomalies.lostEnds, hstrict, if_pos rfl]
    exact (Nat.add_assoc ..).symm
  · rw [htold, Recording.told, hdamage, Anomalies.mismatchedEnd_add, ← haccounted.told]
    split
    · rfl
    · rfl
  · rw [htold, Recording.told]
    intro m hm
    split at hm
    · exact haccounted.differs m (Array.mem_toList_iff.mp hm)
    · exact absurd hm List.not_mem_nil

/-- Two threads with every kind of damage: an end that is abandoned past, one
that finds nothing, one that is earlier than its begin, and a begin left
open. -/
def Recording.battered : Recording where
  chunks := [[{ id := 1, thread := 1, timestamp := 10, kind := .scopeBegin },
      { id := 2, thread := 1, timestamp := 20, kind := .scopeBegin },
      { id := 1, thread := 1, timestamp := 30, kind := .scopeEnd },
      { id := 2, thread := 1, timestamp := 40, kind := .scopeEnd },
      { id := 3, thread := 1, timestamp := 50, kind := .scopeBegin }],
    [{ id := 4, thread := 2, timestamp := 60, kind := .scopeBegin },
      { id := 4, thread := 2, timestamp := 55, kind := .scopeEnd },
      { id := 5, thread := 2, timestamp := 70, kind := .scopeBegin },
      { id := 6, thread := 2, timestamp := 80, kind := .scopeEnd },
      { id := 5, thread := 2, timestamp := 90, kind := .scopeEnd }]]
  startTime := 0
  endTime := 90
  options := { tellsMismatch := true }

/-- Five begins and five ends come to three scopes, one of them invalid: two
begins and, unless matching is strict, two ends are unmatched. -/
theorem scopes_accounted_battered :
    let p := Recording.battered.profile {}
    let q := Recording.battered.profile { strict := true }
    let ends := Replay.ends Recording.battered.events
    (p.anomalies = ⟨2, 2, 2, 1⟩ ∧
      ends = (p.hotspots.map HotspotRow.count).sum + 1 + p.anomalies.unmatchedEnd ∧
      p.anomalies.mismatchedEnd ≤ p.anomalies.unmatchedBegin + p.anomalies.unmatchedEnd) ∧
    (q.anomalies = ⟨2, 0, 2, 1⟩ ∧
      ends = (q.hotspots.map HotspotRow.count).sum + 1 + q.anomalies.unmatchedEnd +
        q.anomalies.mismatchedEnd) ∧
    q.told.length = 2 ∧ ∀ m ∈ q.told, m.expected ≠ m.actual := by
  intro p q ends
  have hp : p.anomalies = ⟨2, 2, 2, 1⟩ := by decide
  have hq : q.anomalies = ⟨2, 0, 2, 1⟩ := by decide
  have hvalid : p.anomalies.invalidDurations = 1 ∧ q.anomalies.invalidDurations = 1 := by
    rw [hp, hq]
    exact ⟨rfl, rfl⟩
  obtain ⟨-, hsearching, -⟩ := scopes_accounted Recording.battered {}
  obtain ⟨-, -, hstrict, -, htold, hdiffers⟩ :=
    scopes_accounted Recording.battered { strict := true }
  obtain ⟨hends, hle⟩ := hsearching rfl
  refine ⟨⟨hp, hvalid.1 ▸ hends, hle⟩, ⟨hq, hvalid.2 ▸ hstrict rfl⟩, ?_, hdiffers⟩
  exact htold.trans (by rw [hq]; rfl)

end EventTrace
