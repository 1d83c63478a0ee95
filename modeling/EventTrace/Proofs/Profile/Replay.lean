import EventTrace.Profile.Basic
import EventTrace.Proofs.Profile.Thread
import EventTrace.Proofs.Table
/-!
# Profile — the threads of a replay, apart

Each thread of a replay is where its own events alone take it
(`Replay.get?_run`), so what holds of a thread's events holds of every tree.
No duration is invalid if the events of every thread are in order and words
hold how long its scopes last (`Replay.invalidDurations_run`).
-/

namespace EventTrace

open ThreadState

/-- The events of every thread are in the order of their timestamps. -/
def ThreadOrdered (events : List Event) : Prop :=
  ∀ t, (events.filter (·.thread == t)).Pairwise fun a b => a.timestamp ≤ b.timestamp

namespace Replay

variable {strict : Bool} {events : List Event} {e : Event} {t : Int}

/-! ## Threads apart -/

theorem run_append (strict : Bool) (events : List Event) (e : Event) :
    run strict (events ++ [e]) = (run strict events).apply strict e := by
  rw [run, List.foldl_append]
  rfl

/-- **A thread is where its own events take it.** -/
theorem get?_run (strict : Bool) (events : List Event) (t : Int) :
    ((run strict events).threads.get? t).getD {} =
      ThreadState.run strict (events.filter (·.thread == t)) := by
  induction events using List.reverseRecOn with
  | nil => rfl
  | append_singleton events e ih =>
    rw [run_append, List.filter_append]
    by_cases ht : t = e.thread
    · subst ht
      have hlast : [e].filter (·.thread == e.thread) = [e] := by simp
      rw [hlast, ThreadState.run_append, ← ih]
      show (((run strict events).threads.insert e.thread _).get? e.thread).getD {} = _
      rw [Table.get?_insert_self]
      rfl
    · have hnone : [e].filter (·.thread == t) = [] := by simp [Ne.symm ht]
      rw [hnone, List.append_nil, ← ih]
      show (((run strict events).threads.insert e.thread _).get? t).getD {} = _
      rw [Table.get?_insert_of_ne ht]

/-- A row of the replay holds the state of its thread's events. -/
theorem state_of_mem {row : Int × ThreadState} (h : row ∈ (run strict events).threads.rows) :
    row.2 = ThreadState.run strict (events.filter (·.thread == row.1)) := by
  rw [← get?_run, Table.get?_of_mem h]
  rfl

/-- Every tree is that of a thread's own events. -/
theorem eq_of_mem_threadTrees {tree : Int × Node}
    (h : tree ∈ (run strict events).threadTrees) :
    tree.2 = Node.root
      (ThreadState.run strict (events.filter (·.thread == tree.1))).trees := by
  obtain ⟨row, hrow, rfl⟩ := List.mem_map.mp h
  rw [← state_of_mem ((List.mergeSort_perm ..).mem_iff.mp hrow)]

/-! ## Invalid durations -/

/-- Words hold how long every scope lasts that a thread closes. -/
def ScopesFit (strict : Bool) (events : List Event) : Prop :=
  ∀ t, AllBrief strict (events.filter (·.thread == t))

/-- It is enough that words hold how far any two events are apart. -/
theorem scopesFit_of_apart
    (h : ∀ b ∈ events, ∀ e ∈ events, e.timestamp - b.timestamp ≤ TickRate.maxTicks) :
    ScopesFit strict events := fun _ =>
  allBrief_of_apart fun b hb e he _ _ =>
    h b (List.mem_of_mem_filter hb) e (List.mem_of_mem_filter he)

/-- **No duration is invalid** after events in order. -/
theorem invalidDurations_run (hordered : ThreadOrdered events) (hfit : ScopesFit strict events) :
    (run strict events).anomalies.invalidDurations = 0 := by
  induction events using List.reverseRecOn with
  | nil => rfl
  | append_singleton events e ih =>
    have hclean : (run strict events).anomalies.invalidDurations = 0 := by
      refine ih (fun t => ?_) fun t => ?_
      · have h := hordered t
        rw [List.filter_append] at h
        exact (List.pairwise_append.mp h).1
      · have h := hfit t
        rw [List.filter_append] at h
        exact h.of_isPrefix (List.prefix_append ..)
    -- the event acts on its thread as the events of that thread alone would have it
    have hown := hordered e.thread
    have hbrief := hfit e.thread
    rw [List.filter_append, List.filter_singleton, beq_self_eq_true, cond_true] at hown hbrief
    have hvalid := valid_run hown (allBrief_concat.mp hbrief).2
    rw [← get?_run] at hvalid
    rw [run_append]
    show (run strict events).anomalies.invalidDurations + _ = 0
    omega

/-- Frames left open are no invalid durations. -/
theorem invalidDurations_totalAnomalies (r : Replay) :
    r.totalAnomalies.invalidDurations = r.anomalies.invalidDurations := by
  rw [totalAnomalies]
  generalize r.anomalies = sum
  induction r.threads.values generalizing sum with
  | nil => rfl
  | cons s rest ih => exact ih _

end Replay

/-- What a profile replays are events of its recording. -/
theorem mem_of_mem_profiledEvents {r : Recording} {o : ProfileOptions} {e : Event}
    (h : e ∈ r.profiledEvents o) : e ∈ r.events := by
  unfold Recording.profiledEvents at h
  split at h
  · exact h
  · exact List.mem_of_mem_filter h

/-- Replaying one thread only leaves events in order. -/
theorem threadOrdered_profiledEvents {r : Recording} (hordered : ThreadOrdered r.events)
    (o : ProfileOptions) : ThreadOrdered (r.profiledEvents o) := by
  intro t
  unfold Recording.profiledEvents
  split
  · exact hordered t
  · exact (hordered t).sublist (List.filter_sublist.filter _)

end EventTrace
