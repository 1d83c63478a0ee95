import EventTrace.Proofs.Profile.Figures
/-!
# Profile — what a replay brings to light, event by event

A replay files one outcome for each event: damage, a mismatched end, a scope
that was closed. What it has at the end are these findings, taken together:
the damage is their sum and the hotspots are the scopes among them, in order.
The findings of one thread are those of its own events alone
(`Replay.findings_filter`), so two lists of events that agree thread by thread
have the same findings in another order (`Replay.findings_perm`).
-/

namespace EventTrace

/-! ## Damage adds up -/

namespace Anomalies

instance : Zero Anomalies := ⟨{}⟩

theorem add_zero (a : Anomalies) : a + 0 = a := rfl

instance : AddCommMonoid Anomalies where
  add_assoc := add_assoc
  zero_add a := (add_comm 0 a).trans (add_zero a)
  add_zero := add_zero
  add_comm := add_comm
  nsmul := nsmulRec

end Anomalies

namespace Replay

variable {strict : Bool} {events events' : List Event} {e : Event} {t : Int}

/-! ## Findings -/

/-- What an event brings to light on its thread. -/
def outcome (strict : Bool) (r : Replay) (e : Event) : Outcome :=
  (((r.threads.get? e.thread).getD {}).step strict e).2

/-- What events bring to light one by one, from some replay on, each with its
thread. -/
def findingsFrom (strict : Bool) : Replay → List Event → List (Int × Outcome)
  | _, [] => []
  | r, e :: rest => (e.thread, outcome strict r e) :: findingsFrom strict (r.apply strict e) rest

/-- What events bring to light one by one, each with its thread. -/
def findings (strict : Bool) (events : List Event) : List (Int × Outcome) :=
  findingsFrom strict {} events

theorem findings_concat (strict : Bool) (events : List Event) (e : Event) :
    findings strict (events ++ [e]) =
      findings strict events ++ [(e.thread, outcome strict (run strict events) e)] := by
  have hfrom : ∀ r : Replay, findingsFrom strict r (events ++ [e]) =
      findingsFrom strict r events ++
        [(e.thread, outcome strict (events.foldl (apply strict) r) e)] := by
    induction events with
    | nil => exact fun r => rfl
    | cons first rest ih => exact fun r => congrArg (_ :: ·) (ih (r.apply strict first))
  exact hfrom {}

/-- What an event brings to light is up to its own thread. -/
theorem outcome_run (strict : Bool) (events : List Event) (e : Event) :
    outcome strict (run strict events) e =
      ((ThreadState.run strict (events.filter (·.thread == e.thread))).step strict e).2 := by
  rw [outcome, get?_run]

/-- What an event of a thread alone brings to light. -/
theorem outcome_alone (strict : Bool) (hthread : ∀ a ∈ events ++ [e], a.thread = t) :
    outcome strict (run strict events) e =
      ((ThreadState.run strict events).step strict e).2 := by
  have he : e.thread = t := hthread e (by simp)
  have hown : events.filter (·.thread == e.thread) = events :=
    List.filter_eq_self.mpr fun a ha => beq_iff_eq.mpr ((hthread a (by simp [ha])).trans he.symm)
  rw [outcome_run, hown]

/-- **The findings of a thread are those of its events alone.** -/
theorem findings_filter (strict : Bool) (events : List Event) (t : Int) :
    (findings strict events).filter (·.1 == t) =
      findings strict (events.filter (·.thread == t)) := by
  induction events using List.reverseRecOn with
  | nil => rfl
  | append_singleton events e ih =>
    rw [findings_concat, List.filter_append, List.filter_append, ih]
    cases ht : e.thread == t with
    | false =>
      rw [List.filter_singleton, List.filter_singleton, ht, cond_false, cond_false,
        List.append_nil, List.append_nil]
    | true =>
      -- the events of the thread are what they were, so the outcome is as well
      have hown : (events.filter (·.thread == t)).filter (·.thread == e.thread) =
          events.filter (·.thread == e.thread) := by
        rw [← beq_iff_eq.mp ht, List.filter_filter]
        simp only [Bool.and_self]
      rw [List.filter_singleton, List.filter_singleton, ht, cond_true, cond_true, findings_concat,
        outcome_run, outcome_run, hown]

/-- **Events that agree thread by thread have the same findings**, in some
order. -/
theorem findings_perm (strict : Bool)
    (h : ∀ t, events'.filter (·.thread == t) = events.filter (·.thread == t)) :
    (findings strict events').Perm (findings strict events) := by
  refine Table.perm_of_filter_key Prod.fst fun t => ?_
  rw [findings_filter, h, ← findings_filter]

/-- There is one finding for each event, of its thread. -/
theorem map_fst_findings (strict : Bool) (events : List Event) :
    (findings strict events).map Prod.fst = events.map Event.thread := by
  induction events using List.reverseRecOn with
  | nil => rfl
  | append_singleton events e ih =>
    rw [findings_concat, List.map_append, ih, List.map_append]
    rfl

/-! ## What they come to -/

/-- The damage on the way is what the findings have of it. -/
theorem anomalies_run (strict : Bool) (events : List Event) :
    (run strict events).anomalies = ((findings strict events).map (·.2.anomalies)).sum := by
  induction events using List.reverseRecOn with
  | nil => rfl
  | append_singleton events e ih =>
    rw [run_append, findings_concat, List.map_append, List.sum_append, ← ih, List.map_singleton,
      List.sum_singleton]
    rfl

/-- The scopes that events close, in order. -/
def closedScopes (strict : Bool) (events : List Event) : List ClosedScope :=
  (findings strict events).filterMap (·.2.closed)

theorem closedScopes_concat (strict : Bool) (events : List Event) (e : Event) :
    closedScopes strict (events ++ [e]) =
      closedScopes strict events ++ (outcome strict (run strict events) e).closed.toList := by
  rw [closedScopes, findings_concat, List.filterMap_append]
  cases hclosed : (outcome strict (run strict events) e).closed with
  | none => simp [closedScopes, hclosed]
  | some scope => simp [closedScopes, hclosed]

/-- The hotspots are the scopes that were closed, put on record in order. -/
theorem hotspots_run (strict : Bool) (events : List Event) :
    (run strict events).hotspots = Hotspots.ofScopes (closedScopes strict events) := by
  induction events using List.reverseRecOn with
  | nil => rfl
  | append_singleton events e ih =>
    rw [run_append, closedScopes_concat, Hotspots.ofScopes, List.foldl_append]
    show (outcome strict (run strict events) e).closed.elim _ _ = _
    rw [ih]
    cases (outcome strict (run strict events) e).closed with
    | none => rfl
    | some scope => rfl

/-- A scope is closed by the thread it is found on, and measured in words. -/
theorem measured_of_mem_findings {f : Int × Outcome} (hf : f ∈ findings strict events)
    {scope : ClosedScope} (hscope : f.2.closed = some scope) :
    scope.thread = f.1 ∧ scope.Measured := by
  induction events using List.reverseRecOn with
  | nil => exact absurd hf List.not_mem_nil
  | append_singleton events e ih =>
    rw [findings_concat] at hf
    rcases List.mem_append.mp hf with hf | hf
    · exact ih hf
    · obtain rfl := List.mem_singleton.mp hf
      exact ThreadState.measured_of_closed hscope

theorem measured_of_mem_closedScopes {scope : ClosedScope}
    (hscope : scope ∈ closedScopes strict events) : scope.Measured := by
  obtain ⟨f, hf, hclosed⟩ := List.mem_filterMap.mp hscope
  exact (measured_of_mem_findings hf hclosed).2

/-- Every scope is closed by a thread with events. -/
theorem thread_of_mem_closedScopes {scope : ClosedScope}
    (hscope : scope ∈ closedScopes strict events) : scope.thread ∈ events.map Event.thread := by
  obtain ⟨f, hf, hclosed⟩ := List.mem_filterMap.mp hscope
  rw [(measured_of_mem_findings hf hclosed).1, ← map_fst_findings strict]
  exact List.mem_map_of_mem hf

/-- **The scopes a thread closes are those that its events alone close.** -/
theorem closedScopes_filter (strict : Bool) (events : List Event) (t : Int) :
    (closedScopes strict events).filter (·.thread == t) =
      closedScopes strict (events.filter (·.thread == t)) := by
  rw [closedScopes, closedScopes, ← findings_filter, List.filter_filterMap, List.filterMap_filter]
  refine List.filterMap_congr fun f hf => ?_
  cases hclosed : f.2.closed with
  | none => simp
  | some scope =>
    rw [← (measured_of_mem_findings hf hclosed).1]
    by_cases hthread : scope.thread = t
    · simp [hthread]
    · simp [hthread]

/-! ## The threads of a replay -/

/-- A replay has a state for the threads of its events, and for these only. -/
theorem get?_run_eq (strict : Bool) (events : List Event) (t : Int) :
    (run strict events).threads.get? t =
      if t ∈ events.map Event.thread then
        some (ThreadState.run strict (events.filter (·.thread == t)))
      else none := by
  have hpresent : ((run strict events).threads.get? t).isSome ↔ t ∈ events.map Event.thread := by
    induction events using List.reverseRecOn with
    | nil => simp [run, Table.get?, EmptyCollection.emptyCollection, Table.empty, Table.find]
    | append_singleton events e ih =>
      have hlast : (run strict (events ++ [e])).threads.get? t =
          if t = e.thread then some (((((run strict events).threads.get? e.thread).getD {}).step
            strict e).1) else (run strict events).threads.get? t := by
        rw [run_append]
        exact Table.get?_alter ..
      rw [hlast, List.map_append, List.mem_append, List.map_singleton, List.mem_singleton, ← ih]
      split
      · next ht => simp [ht]
      · next ht => simp [ht]
  have hstate := get?_run strict events t
  cases hget : (run strict events).threads.get? t with
  | none =>
    rw [hget] at hpresent
    rw [if_neg fun ht => absurd (hpresent.mpr ht) (by simp)]
  | some s =>
    rw [hget] at hpresent hstate
    rw [if_pos (hpresent.mp rfl), ← hstate]
    rfl

theorem mem_keys_run : t ∈ (run strict events).threads.keys ↔ t ∈ events.map Event.thread := by
  rw [Table.mem_keys_iff, get?_run_eq]
  split
  · next ht => simp [ht]
  · next ht => simp [ht]

/-- What is summed over the states of a replay is summed over its threads. -/
theorem sum_values_run {M : Type} [AddCommMonoid M] (f : ThreadState → M) (strict : Bool)
    (events : List Event) :
    ((run strict events).threads.values.map f).sum =
      ((run strict events).threads.keys.map fun t =>
        f (ThreadState.run strict (events.filter (·.thread == t)))).sum := by
  rw [Table.values, Table.keys, List.map_map, List.map_map]
  refine congrArg List.sum (List.map_congr_left fun row hrow => ?_)
  show f row.2 = _
  rw [state_of_mem hrow]
  rfl

end Replay

end EventTrace
