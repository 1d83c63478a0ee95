import EventTrace.Proofs.Durations.Spreads
import EventTrace.Proofs.Profile.Nested
/-!
# Durations — in lockstep with a replay

The pass over the durations and the replay into trees keep different things
for an open frame, and file what they find differently. But a match looks at
nothing that is kept (`Nesting.close_bare`), so an event does to the pass what
its outcome in the replay says (`DurationPass.apply_eq`), whatever the damage.
The two are in step after every event (`Lockstep.run`), and report the same
damage, the same mismatched ends and the same ids (`durations_agree`).
-/

namespace EventTrace

/-! ## Frames without what is kept for them -/

/-- A frame without what a pass keeps for it. -/
def Frame.bare {α : Type} (f : Frame α) : Frame Unit := ⟨f.id, f.start, ()⟩

@[simp] theorem Frame.id_bare {α : Type} (f : Frame α) : f.bare.id = f.id := rfl

/-- A match without what a pass keeps for its frames. -/
def Match.bare {α : Type} (m : Match α) : Match Unit :=
  ⟨m.frame.bare, m.abandoned.map Frame.bare, m.below.map Frame.bare⟩

/-- A closing without what a pass keeps for its frames. -/
def Closing.bare {α : Type} (c : Closing α) : Closing Unit :=
  ⟨c.matched.map Match.bare, c.anomalies, c.expected⟩

namespace Nesting

variable {α : Type}

theorem nearest?_bare (id : Int) (frames : List (Frame α)) :
    nearest? id (frames.map Frame.bare) = (nearest? id frames).map Match.bare := by
  induction frames with
  | nil => rfl
  | cons top below ih =>
    rw [List.map_cons, nearest?, nearest?, Frame.id_bare]
    by_cases hid : top.id = id
    · rw [if_pos hid, if_pos hid]
      rfl
    · rw [if_neg hid, if_neg hid, ih, Option.map_map, Option.map_map]
      refine congrArg (Option.map · _) (funext fun m => ?_)
      simp [Match.bare]

/-- **A match looks at nothing that is kept for a frame.** -/
theorem close_bare (strict : Bool) (id : Int) (frames : List (Frame α)) :
    close strict id (frames.map Frame.bare) = (close strict id frames).bare := by
  cases frames with
  | nil => rfl
  | cons top below =>
    rw [List.map_cons, close, close, Frame.id_bare]
    by_cases hid : top.id = id
    · rw [if_pos hid, if_pos hid]
      rfl
    · rw [if_neg hid, if_neg hid, nearest?_bare]
      cases strict with
      | true => rfl
      | false =>
        cases nearest? id below with
        | none => rfl
        | some m => simp [Closing.bare, Match.bare, Frame.bare]

end Nesting

/-! ## One event -/

namespace ThreadState

variable {strict : Bool} {s : ThreadState} {e : Event}

/-- The open frames of a thread without the nodes they hold. -/
def bareFrames (s : ThreadState) : List (Frame Unit) := s.frames.map Frame.bare

theorem bareFrames_handDown (s : ThreadState) (p : Pending) :
    (s.handDown p).bareFrames = s.bareFrames := by
  obtain ⟨frames, roots⟩ := s
  cases frames <;> rfl

theorem bareFrames_finish (s : ThreadState) (e : Event) (m : Match Pending) :
    (s.finish e m).1.bareFrames = m.below.map Frame.bare := by
  unfold finish
  dsimp only
  split
  · exact bareFrames_handDown ..
  · exact bareFrames_handDown ..

end ThreadState

namespace DurationPass

variable {strict : Bool} {p : DurationPass} {s : ThreadState} {e : Event}

/-- What an outcome on a thread with some frames makes of a pass. -/
def file (p : DurationPass) (thread : Int) (frames : List (Frame Unit)) (o : Outcome) :
    DurationPass where
  threads := p.threads.insert thread frames
  ids := o.closed.elim p.ids (Spread.tally p.ids)
  anomalies := p.anomalies + o.anomalies
  mismatches := o.mismatch.elim p.mismatches p.mismatches.push
  scopeEvents := p.scopeEvents + 1

/-- The frame that closes is the same without what is kept for it, so both
find the same duration, or the same damage. -/
theorem count_eq (p : DurationPass) (s : ThreadState) (e : Event) (m : Match Pending) :
    p.count e m.frame.bare = { p with
      ids := (s.finish e m).2.closed.elim p.ids (Spread.tally p.ids)
      anomalies := p.anomalies + (s.finish e m).2.anomalies } := by
  unfold count ThreadState.finish
  by_cases hticks : Ticks.wrap (e.timestamp - m.frame.start) < 0
  · simp [Frame.bare, hticks]
  · simp only [Frame.bare, hticks, if_false]
    rfl

theorem closeScope_eq (hframes : p.framesOf e.thread = s.bareFrames) :
    p.closeScope strict e =
      p.file e.thread (s.close strict e).1.bareFrames (s.close strict e).2 := by
  have hbare : Nesting.close strict e.id (p.framesOf e.thread) =
      (Nesting.close strict e.id s.frames).bare := by
    rw [hframes, ThreadState.bareFrames, Nesting.close_bare]
  rw [closeScope, ThreadState.close]
  simp only [hbare]
  generalize Nesting.close strict e.id s.frames = closing
  obtain ⟨matched, anomalies, expected⟩ := closing
  cases matched with
  | none => cases expected <;> simp [Closing.bare, file, hframes]
  | some m =>
    simp only [Closing.bare, Option.map_some, Match.bare, count_eq _ s e m]
    cases expected <;> simp [file, ThreadState.bareFrames_finish, Anomalies.add_assoc]

/-- **An event does to a pass what its outcome in the replay says**, and only
begins and ends do anything. -/
theorem apply_eq (strict : Bool) (hframes : p.framesOf e.thread = s.bareFrames) :
    p.apply strict e = if e.kind.isScope then
      p.file e.thread (s.step strict e).1.bareFrames (s.step strict e).2 else p := by
  unfold apply ThreadState.step
  split
  · next hkind =>
    simp only [hkind, Kind.isScope, if_true, openScope, hframes]
    rfl
  · next hkind =>
    rw [hkind]
    exact closeScope_eq hframes
  · next hbegin hend =>
    rw [if_neg]
    cases hkind : e.kind <;> simp_all [Kind.isScope]

end DurationPass

/-! ## Every event -/

/-- What a replay has of a thread. -/
def Replay.stateOf (r : Replay) (t : Int) : ThreadState := (r.threads.get? t).getD {}

/-- A thread is where the event takes it, and the others stay. -/
theorem Replay.stateOf_apply (strict : Bool) (r : Replay) (e : Event) (t : Int) :
    (r.apply strict e).stateOf t =
      if t = e.thread then ((r.stateOf e.thread).step strict e).1 else r.stateOf t := by
  show ((r.threads.insert e.thread _).get? t).getD {} = _
  by_cases ht : t = e.thread
  · rw [if_pos ht, ht, Table.get?_insert_self]
    rfl
  · rw [if_neg ht, Table.get?_insert_of_ne ht]
    rfl

/-- The frames open on all threads together. -/
def Replay.openFrames (r : Replay) : Nat := (r.threads.values.map fun s => s.frames.length).sum

/-- An event opens and closes frames of its own thread only. -/
theorem Replay.openFrames_apply (strict : Bool) (r : Replay) (e : Event) :
    (r.apply strict e).openFrames + (r.stateOf e.thread).frames.length =
      r.openFrames + ((r.stateOf e.thread).step strict e).1.frames.length :=
  Table.sum_values_alter (fun s : ThreadState => s.frames.length) r.threads e.thread _ {} rfl

namespace DurationPass

/-- The frames open on all threads together. -/
def openFrames (p : DurationPass) : Nat := (p.threads.values.map List.length).sum

variable {t : Int} (p : DurationPass) (thread : Int) (frames : List (Frame Unit)) (o : Outcome)

theorem framesOf_file :
    (p.file thread frames o).framesOf t = if t = thread then frames else p.framesOf t := by
  show ((p.threads.insert thread frames).get? t).getD [] = _
  by_cases ht : t = thread
  · rw [if_pos ht, ht, Table.get?_insert_self]
    rfl
  · rw [if_neg ht, Table.get?_insert_of_ne ht]
    rfl

theorem openFrames_file : (p.file thread frames o).openFrames + (p.framesOf thread).length =
    p.openFrames + frames.length :=
  Table.sum_values_alter List.length p.threads thread _ [] rfl

end DurationPass

/-- A pass and a replay that have come equally far: they agree on the frames
of every thread, and on the damage so far. -/
structure Lockstep (p : DurationPass) (r : Replay) : Prop where
  frames : ∀ t, p.framesOf t = (r.stateOf t).bareFrames
  openFrames : p.openFrames = r.openFrames
  anomalies : p.anomalies = r.anomalies
  mismatches : p.mismatches = r.mismatches
  scopeEvents : p.scopeEvents = r.scopeEvents

namespace Lockstep

variable {p : DurationPass} {r : Replay} {e : Event}

/-- A replay files the state of a thread again where the pass skips an
event. -/
theorem apply_other (h : Lockstep p r) (strict : Bool) (he : e.kind.isScope = false) :
    Lockstep p (r.apply strict e) := by
  have hstep : (r.stateOf e.thread).step strict e = (r.stateOf e.thread, {}) :=
    ThreadState.step_of_not_isScope he
  refine ⟨fun t => ?_, ?_, ?_, ?_, ?_⟩
  · rw [h.frames, Replay.stateOf_apply, hstep]
    split
    · next ht => rw [ht]
    · rfl
  · have hopen := r.openFrames_apply strict e
    rw [hstep] at hopen
    rw [h.openFrames, Nat.add_right_cancel hopen]
  · show p.anomalies = r.anomalies + ((r.stateOf e.thread).step strict e).2.anomalies
    rw [hstep, h.anomalies]
    rfl
  · show p.mismatches = ((r.stateOf e.thread).step strict e).2.mismatch.elim _ _
    rw [hstep, h.mismatches]
    rfl
  · show p.scopeEvents = if e.kind.isScope then r.scopeEvents + 1 else r.scopeEvents
    rw [he, h.scopeEvents]
    rfl

/-- What the replay finds at a begin or an end, filed by the pass, keeps the
two in step. -/
theorem apply_scope (h : Lockstep p r) (strict : Bool) (he : e.kind.isScope = true) :
    Lockstep (p.file e.thread ((r.stateOf e.thread).step strict e).1.bareFrames
      ((r.stateOf e.thread).step strict e).2) (r.apply strict e) := by
  refine ⟨fun t => ?_, ?_, ?_, ?_, ?_⟩
  · rw [DurationPass.framesOf_file, Replay.stateOf_apply, h.frames]
    split
    · rfl
    · rfl
  · have hpass := p.openFrames_file e.thread ((r.stateOf e.thread).step strict e).1.bareFrames
      ((r.stateOf e.thread).step strict e).2
    have hreplay := r.openFrames_apply strict e
    rw [h.frames, ThreadState.bareFrames, ThreadState.bareFrames, List.length_map,
      List.length_map, h.openFrames] at hpass
    exact Nat.add_right_cancel (hpass.trans hreplay.symm)
  · show p.anomalies + _ = r.anomalies + _
    rw [h.anomalies]
    rfl
  · show Option.elim _ p.mismatches _ = Option.elim _ r.mismatches _
    rw [h.mismatches]
    rfl
  · show p.scopeEvents + 1 = if e.kind.isScope then r.scopeEvents + 1 else r.scopeEvents
    rw [he, h.scopeEvents]
    rfl

/-- **Every event keeps a pass in step with a replay**, whatever damage it
does. -/
theorem apply (h : Lockstep p r) (strict : Bool) (e : Event) :
    Lockstep (p.apply strict e) (r.apply strict e) := by
  rw [DurationPass.apply_eq strict (h.frames e.thread)]
  cases he : e.kind.isScope with
  | false => exact h.apply_other strict he
  | true => exact h.apply_scope strict he

/-- A pass and a replay of the same events are in step. -/
theorem run (strict : Bool) (events : List Event) :
    Lockstep (DurationPass.run strict events) (Replay.run strict events) := by
  induction events using List.reverseRecOn with
  | nil => exact ⟨fun _ => rfl, rfl, rfl, rfl, rfl⟩
  | append_singleton events e ih =>
    rw [Replay.run_append, DurationPass.run, List.foldl_append]
    exact ih.apply strict e

/-- Frames left open are the same damage to both. -/
theorem totalAnomalies (h : Lockstep p r) : p.totalAnomalies = r.totalAnomalies := by
  have hleft : ∀ (frames : List (List (Frame Unit))) (sum : Anomalies),
      frames.foldl (fun sum frames => sum + Nesting.leftOpen frames) sum =
        sum + { unmatchedBegin := (frames.map List.length).sum } := by
    intro frames
    induction frames with
    | nil => exact fun sum => rfl
    | cons first rest ih =>
      intro sum
      rw [List.foldl_cons, ih, Anomalies.add_assoc]
      rfl
  have hopen := h.openFrames
  rw [DurationPass.openFrames, Replay.openFrames] at hopen
  rw [DurationPass.totalAnomalies, hleft, Replay.totalAnomalies_eq, h.anomalies, hopen]

end Lockstep

/-- **The spreads of a pass are those of the scopes a replay closes.** -/
theorem DurationPass.ids_run (strict : Bool) (events : List Event) :
    (run strict events).ids = spreadsOf (Replay.closedScopes strict events) := by
  induction events using List.reverseRecOn with
  | nil => rfl
  | append_singleton events e ih =>
    have hrun : run strict (events ++ [e]) = (run strict events).apply strict e := by
      rw [run, List.foldl_append]
      rfl
    rw [hrun, apply_eq strict ((Lockstep.run strict events).frames e.thread),
      Replay.closedScopes_concat]
    cases he : e.kind.isScope with
    | false =>
      have hnone : (Replay.outcome strict (Replay.run strict events) e).closed = none := by
        rw [Replay.outcome, ThreadState.step_of_not_isScope he]
      rw [hnone, Option.toList_none, List.append_nil]
      exact ih
    | true =>
      show (Replay.outcome strict (Replay.run strict events) e).closed.elim _ _ = _
      cases (Replay.outcome strict (Replay.run strict events) e).closed with
      | none => simpa using ih
      | some scope =>
        rw [Option.toList_some, spreadsOf_concat, ← ih]
        rfl

/-! ## Both reports -/

/-- **The durations of a recording agree with its profile.** Whatever damage
the nesting has, both report the same damage and the same number of begins and
ends, and tell of the same mismatched ends in the same order. They list the
same ids in the same order, with the same names, numbers of scopes and total
ticks, and each spread tells of the scopes that the profile has of its id: its
total is their sum if a word holds it, and lies between as many of the shortest
and as many of the longest. -/
theorem durations_agree (r : Recording) (strict byThread : Bool) :
    let report := r.durations strict
    let profile := r.profile { strict, byThread }
    let pass := DurationPass.run strict r.events
    let replay := Replay.run strict r.events
    let scopes := Replay.closedScopes strict r.events
    report.anomalies = profile.anomalies ∧ report.scopeEvents = profile.scopeEvents ∧
    report.told = profile.told ∧ pass.mismatches = replay.mismatches ∧
    report.ids.map (fun row => (row.id, row.name, row.count, row.totalMs)) =
      profile.hotspots.map (fun row => (row.id, row.name, row.count, row.inclusiveMs)) ∧
    pass.ranked.map (fun row => (row.1, row.2.count, row.2.total)) =
      replay.hotspots.ranked.map (fun row => (row.1, row.2.count, row.2.inclusive)) ∧
    (∀ id, (∃ row ∈ pass.ranked, row.1 = id) ↔ ∃ scope ∈ scopes, scope.id = id) ∧
    ∀ row ∈ pass.ranked, row.2.Tells (durationsOf row.1 scopes) ∧
      (Ticks.Fit (durationsOf row.1 scopes).sum → row.2.total = (durationsOf row.1 scopes).sum ∧
        row.2.count * row.2.shortest ≤ row.2.total ∧
        row.2.total ≤ row.2.count * row.2.longest) := by
  intro report profile pass replay scopes
  have hfit : ∀ scope ∈ scopes, scope.amount.Fit := fun scope hscope =>
    (Replay.measured_of_mem_closedScopes hscope).fit
  have hstep : Lockstep pass replay := .run strict r.events
  have hrows : pass.ranked.map (fun row => (row.1, row.2.count, row.2.total)) =
      replay.hotspots.ranked.map (fun row => (row.1, row.2.count, row.2.inclusive)) := by
    have hranked := map_ranked_spreadsOf hfit
    rwa [← DurationPass.ids_run, ← Replay.hotspots_run] at hranked
  have htells : ∀ id, Spread.TellsAny (pass.ids.get? id) (durationsOf id scopes) := by
    intro id
    rw [DurationPass.ids_run]
    exact tells_spreadsOf hfit id
  have hrow : ∀ row, row ∈ pass.ranked ↔ pass.ids.get? row.1 = some row.2 := fun row =>
    (rankBy_perm _ _).mem_iff.trans ⟨Table.get?_of_mem, Table.mem_of_get?⟩
  refine ⟨hstep.totalAnomalies, hstep.scopeEvents, ?_, hstep.mismatches, ?_, hrows, fun id => ?_,
    fun row hmem => ?_⟩
  · show r.told pass.mismatches = r.told replay.mismatches
    rw [hstep.mismatches]
  · -- rows are shown by their ids, numbers and ticks
    have hshown := congrArg (List.map fun row : Int × Nat × Int =>
      (row.1, r.nameOf row.1, row.2.1, r.rate.toMillis row.2.2)) hrows
    rw [List.map_map, List.map_map] at hshown
    show List.map _ (List.map _ _) = List.map _ (List.map _ _)
    rw [List.map_map, List.map_map]
    exact hshown
  · rw [← exists_spread_iff hfit, ← DurationPass.ids_run]
    constructor
    · rintro ⟨row, hmem, rfl⟩
      exact ⟨row.2, (hrow row).mp hmem⟩
    · rintro ⟨s, hs⟩
      exact ⟨(id, s), (hrow (id, s)).mpr hs, rfl⟩
  · have htold := htells row.1
    rw [(hrow row).mp hmem] at htold
    exact ⟨htold, Spread.Tells.total_eq htold⟩

/-- An end that closes the outer of two open scopes, a scope that ends before
it began, and an end with nothing open. -/
theorem durations_agree_damaged :
    let event := fun id thread timestamp kind => ({ id, thread, timestamp, kind } : Event)
    let r : Recording :=
      { chunks := [[event 5 1 0 .scopeBegin, event 6 1 1 .scopeBegin, event 5 1 4 .scopeEnd],
          [event 5 2 9 .scopeBegin, event 5 2 3 .scopeEnd, event 6 2 4 .scopeEnd,
            event 5 2 5 .scopeBegin, event 5 2 6 .scopeEnd]]
        startTime := 0
        endTime := 9 }
    (r.durations false).anomalies = (r.profile {}).anomalies ∧
      (r.profile {}).anomalies = ⟨1, 1, 1, 1⟩ ∧
      Spread.Tells ⟨2, 5, 1, 4⟩ (durationsOf 5 (Replay.closedScopes false r.events)) := by
  intro event r
  obtain ⟨hdamage, -, -, -, -, -, -, hrows⟩ := durations_agree r false true
  exact ⟨hdamage, by decide, (hrows (5, ⟨2, 5, 1, 4⟩)
    ((rankBy_perm _ _).mem_iff.mpr (by decide))).1⟩

end EventTrace
