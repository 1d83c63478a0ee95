import EventTrace.Proofs.Profile.Findings
import EventTrace.Proofs.Profile.Records
/-!
# Profile — no time vanishes or is counted twice

What a thread holds grows by the exclusive ticks of each scope that closes, so
after events in order it is their sum (`ThreadState.held_run`), and so are the
inclusive ticks of its trees. Hotspots take the same ticks scope by scope, and
the tree of all threads takes those of every thread; all of them are one total,
the exclusive ticks of the scopes that were closed (`Replay.exclusiveTicks`).
Words have to hold that total, and how long each scope lasts; nothing is asked
of the sums on the way.
-/

namespace EventTrace

open ThreadState

namespace Replay

variable {strict : Bool} {events : List Event} {e : Event} {t : Int}

/-! ## The total -/

/-- The exclusive ticks of the scopes that events close. -/
def exclusiveTicks (strict : Bool) (events : List Event) : Int :=
  ((closedScopes strict events).map ClosedScope.exclusive).sum

theorem exclusive_nonneg {ticks : Int}
    (h : ticks ∈ (closedScopes strict events).map ClosedScope.exclusive) : 0 ≤ ticks := by
  obtain ⟨scope, hscope, rfl⟩ := List.mem_map.mp h
  exact (measured_of_mem_closedScopes hscope).exclusive

/-- Some of the scopes that events close take no more than all of them. -/
theorem sum_filter_le_exclusiveTicks (p : ClosedScope → Bool) :
    (((closedScopes strict events).filter p).map ClosedScope.exclusive).sum ≤
      exclusiveTicks strict events :=
  (List.filter_sublist.map ClosedScope.exclusive).sum_le_sum fun _ => exclusive_nonneg

/-- A thread alone closes no more than all threads do. -/
theorem exclusiveTicks_filter_le (strict : Bool) (events : List Event) (t : Int) :
    exclusiveTicks strict (events.filter (·.thread == t)) ≤ exclusiveTicks strict events := by
  rw [exclusiveTicks, ← closedScopes_filter]
  exact sum_filter_le_exclusiveTicks _

/-- An event adds the exclusive ticks of the scope it closes. -/
theorem exclusiveTicks_concat (strict : Bool) (events : List Event) (e : Event) :
    exclusiveTicks strict (events ++ [e]) = exclusiveTicks strict events +
      ((outcome strict (run strict events) e).closed.map ClosedScope.exclusive).getD 0 := by
  rw [exclusiveTicks, closedScopes_concat, List.map_append, List.sum_append, ← exclusiveTicks]
  cases (outcome strict (run strict events) e).closed with
  | none => rfl
  | some scope => simp

/-- Words hold how long every scope lasts, and the exclusive ticks of all scopes
together. -/
structure TicksFit (strict : Bool) (events : List Event) : Prop where
  scopes : ScopesFit strict events
  total : exclusiveTicks strict events ≤ TickRate.maxTicks

end Replay

/-! ## One thread -/

namespace ThreadState

open Replay (exclusiveTicks)

variable {strict : Bool} {events : List Event} {t : Int}

/-- **After events in order everything fits** between the first begin or end
and the last, if there is any, and what is held are the exclusive ticks of the
scopes that were closed. -/
theorem fits_run (hthread : ∀ a ∈ events, a.thread = t)
    (hordered : events.Pairwise fun a b => a.timestamp ≤ b.timestamp)
    (hbrief : AllBrief strict events)
    (htotal : exclusiveTicks strict events ≤ TickRate.maxTicks) :
    (run strict events).held = exclusiveTicks strict events ∧
      ((events.filter (·.kind.isScope) = [] ∧ run strict events = {}) ∨
        ∃ a b, (events.filter (·.kind.isScope)).head? = some a ∧
          (events.filter (·.kind.isScope)).getLast? = some b ∧
          Fits a.timestamp b.timestamp (run strict events)) := by
  induction events using List.reverseRecOn with
  | nil => exact ⟨rfl, .inl ⟨rfl, rfl⟩⟩
  | append_singleton events e ih =>
    obtain ⟨hevents, -, hbefore⟩ := List.pairwise_append.mp hordered
    obtain ⟨hbriefs, hlast⟩ := allBrief_concat.mp hbrief
    have hgrown := Replay.exclusiveTicks_concat strict events e
    rw [Replay.outcome_alone strict hthread] at hgrown
    -- the scope that the event closes took no less than no time
    have hclosed : 0 ≤
        (((run strict events).step strict e).2.closed.map ClosedScope.exclusive).getD 0 := by
      cases hscope : ((run strict events).step strict e).2.closed with
      | none => exact le_rfl
      | some scope => exact (measured_of_closed hscope).2.exclusive
    obtain ⟨hheld, hfits⟩ := ih (fun a ha => hthread a (by simp [ha])) hevents hbriefs (by omega)
    rw [run_append, List.filter_append]
    cases hscope : e.kind.isScope with
    | false =>
      have hnone : [e].filter (·.kind.isScope) = [] := by simp [hscope]
      rw [step_of_not_isScope hscope] at hgrown ⊢
      rw [hnone, List.append_nil, hgrown]
      -- the event is no begin and no end: the span stays, and so does the state
      exact ⟨hheld.trans (add_zero _).symm, hfits⟩
    | true =>
      have hone : [e].filter (·.kind.isScope) = [e] := by simp [hscope]
      rw [hgrown, ← hheld, hone]
      rw [hgrown, ← hheld] at htotal
      rcases hfits with ⟨hnone, hrun⟩ | ⟨a, b, ha, hb, hfits⟩
      · have hempty : Fits e.timestamp e.timestamp (run strict events) := hrun ▸ .empty e.timestamp
        obtain ⟨hfits, hstep⟩ := hempty.step le_rfl hlast htotal
        rw [hnone]
        exact ⟨hstep, .inr ⟨e, e, rfl, rfl, hfits⟩⟩
      · -- the last begin or end came before this one
        have hle : b.timestamp ≤ e.timestamp :=
          hbefore b (List.mem_of_mem_filter (List.mem_of_getLast? hb)) e List.mem_cons_self
        obtain ⟨hfits, hstep⟩ := hfits.step hle hlast htotal
        refine ⟨hstep, .inr ⟨a, e, ?_, List.getLast?_concat, hfits⟩⟩
        rw [List.head?_append, ha]
        rfl

/-- The ticks between the first begin or end among some events and the
last. -/
def scopeSpan (events : List Event) : Int :=
  match (events.filter (·.kind.isScope)).head?, (events.filter (·.kind.isScope)).getLast? with
  | some a, some b => b.timestamp - a.timestamp
  | _, _ => 0

/-- **The trees of a thread with events in order** are settled, take the
exclusive ticks of the scopes it closed, and take no longer than its begins and
ends. -/
theorem trees_run (hthread : ∀ a ∈ events, a.thread = t)
    (hordered : events.Pairwise fun a b => a.timestamp ≤ b.timestamp)
    (hbrief : AllBrief strict events)
    (htotal : exclusiveTicks strict events ≤ TickRate.maxTicks) :
    Node.AllSettled (run strict events).trees ∧
      Node.inclusiveSum (run strict events).trees = exclusiveTicks strict events ∧
      exclusiveTicks strict events ≤ scopeSpan events := by
  obtain ⟨hheld, hfits⟩ := fits_run hthread hordered hbrief htotal
  rw [← hheld] at htotal ⊢
  rcases hfits with ⟨hnone, hrun⟩ | ⟨a, b, ha, hb, hfits⟩
  · have hempty : Fits 0 0 (run strict events) := hrun ▸ .empty 0
    obtain ⟨hsettled, hsum⟩ := hempty.trees htotal
    refine ⟨hsettled, hsum, ?_⟩
    rw [scopeSpan, hnone]
    exact hempty.held_le
  · obtain ⟨hsettled, hsum⟩ := hfits.trees htotal
    refine ⟨hsettled, hsum, ?_⟩
    rw [scopeSpan, ha, hb]
    exact hfits.held_le

end ThreadState

/-! ## All threads -/

namespace Replay

variable {strict : Bool} {events : List Event}

/-- A tree that hides no time: every node below the root is settled, and the
exclusive ticks of all nodes add up to the inclusive ticks of the root. -/
structure Conserved (root : Node) : Prop where
  settled : ∀ n ∈ Node.nodesAll root.children, Node.Settled n
  total : (root.nodes.map Node.exclusive).sum = root.inclusive

theorem conserved_root {children : List Node} (h : Node.AllSettled children)
    (hfit : Node.inclusiveSum children ≤ TickRate.maxTicks) :
    Conserved (Node.root children) ∧
      (Node.root children).inclusive = Node.inclusiveSum children := by
  have hticks : (Node.root children).inclusive = Node.inclusiveSum children :=
    Ticks.wrap_eq_of_nonneg h.inclusiveSum_nonneg hfit
  refine ⟨⟨h, ?_⟩, hticks⟩
  rw [Node.nodes_eq, List.map_cons, List.sum_cons, hticks]
  show 0 + ((Node.nodesAll children).map Node.exclusive).sum = Node.inclusiveSum children
  rw [Node.sum_exclusive_nodesAll children h, zero_add]

/-- The trees of a thread hide no time. -/
theorem trees_of_mem_threadTrees (hordered : ThreadOrdered events) (hfit : TicksFit strict events)
    {tree : Int × Node} (h : tree ∈ (run strict events).threadTrees) :
    Node.AllSettled tree.2.children ∧
      Node.inclusiveSum tree.2.children =
        exclusiveTicks strict (events.filter (·.thread == tree.1)) ∧
      Node.inclusiveSum tree.2.children ≤ scopeSpan (events.filter (·.thread == tree.1)) := by
  have hthread : ∀ a ∈ events.filter (·.thread == tree.1), a.thread = tree.1 := fun a ha =>
    beq_iff_eq.mp (List.mem_filter.mp ha).2
  obtain ⟨hsettled, hsum, hle⟩ := trees_run hthread (hordered tree.1) (hfit.scopes tree.1)
    ((exclusiveTicks_filter_le strict events tree.1).trans hfit.total)
  rw [eq_of_mem_threadTrees h]
  exact ⟨hsettled, hsum, hsum.le.trans hle⟩

/-- **The trees of all threads take the total.** -/
theorem sum_threadTrees (hordered : ThreadOrdered events) (hfit : TicksFit strict events) :
    ((run strict events).threadTrees.map fun tree => Node.inclusiveSum tree.2.children).sum =
      exclusiveTicks strict events := by
  have hperm : (run strict events).threads.sorted.Perm (run strict events).threads.rows :=
    List.mergeSort_perm ..
  have hthreads : ∀ scope ∈ closedScopes strict events,
      scope.thread ∈ (run strict events).threads.keys := fun scope hscope =>
    mem_keys_run.mpr (thread_of_mem_closedScopes hscope)
  have heach : ((run strict events).threadTrees.map fun tree =>
      Node.inclusiveSum tree.2.children) = (run strict events).threadTrees.map fun tree =>
        exclusiveTicks strict (events.filter (·.thread == tree.1)) :=
    List.map_congr_left fun tree htree => (trees_of_mem_threadTrees hordered hfit htree).2.1
  have hkeys : ((run strict events).threadTrees.map fun tree =>
      exclusiveTicks strict (events.filter (·.thread == tree.1))).sum =
        ((run strict events).threads.keys.map fun t =>
          exclusiveTicks strict (events.filter (·.thread == t))).sum := by
    rw [threadTrees, Table.keys, List.map_map, List.map_map]
    exact (hperm.map _).sum_eq
  rw [heach, hkeys]
  simp only [exclusiveTicks, ← closedScopes_filter]
  exact Table.sum_keys _ _ (Table.nodup_keys _) hthreads

/-- **The rows of hotspots take the total.** -/
theorem sum_rows (hfit : exclusiveTicks strict events ≤ TickRate.maxTicks) :
    ((run strict events).hotspots.ranked.map fun row => row.2.exclusive).sum =
      exclusiveTicks strict events := by
  rw [hotspots_run]
  -- ranking only reorders the rows, and each takes what the scopes of its id do
  have hrows : ((Hotspots.ofScopes (closedScopes strict events)).ranked.map
      fun row => row.2.exclusive).sum =
        ((Hotspots.ofScopes (closedScopes strict events)).ids.keys.map fun id =>
          (((closedScopes strict events).filter (·.id == id)).map
            ClosedScope.exclusive).sum).sum := by
    rw [Table.keys, List.map_map, Hotspots.ranked, ((rankBy_perm _ _).map _).sum_eq]
    refine congrArg List.sum (List.map_congr_left fun row hrow => ?_)
    have htotals : (Hotspots.ofScopes (closedScopes strict events)).totals row.1 = row.2 := by
      rw [Hotspots.totals, Table.get?_of_mem hrow]
      rfl
    have hamount := Hotspots.amount_ofScopes (closedScopes strict events) row.1
    rw [htotals, ClosedScope.sum_amountOf] at hamount
    have hexclusive : row.2.exclusive =
        Ticks.wrap (ClosedScope.exclusiveOf row.1 (closedScopes strict events)) :=
      congrArg (fun amount => amount.2.2) hamount
    refine hexclusive.trans (Ticks.wrap_eq_of_nonneg ?_ ?_)
    · exact List.sum_nonneg fun ticks hticks =>
        exclusive_nonneg (List.map_subset _ List.filter_sublist.subset hticks)
    · exact (sum_filter_le_exclusiveTicks _).trans hfit
  rw [hrows]
  refine Table.sum_keys _ _ (Table.nodup_keys _) fun scope hscope => ?_
  exact Table.mem_keys_iff.mpr (Hotspots.get?_ofScopes_iff.mpr ⟨scope, hscope, rfl⟩)

end Replay

/-- **No measured time vanishes or is counted twice**, however damaged the
nesting, if each thread's events are in order and words hold the ticks: no
duration is invalid; in the tree of each thread and in that of all threads every
node takes for itself what its children leave of it, which is never negative,
and all together what the root takes; so do the rows of hotspots; and the root
of a thread takes no longer than from its first begin or end to its last. -/
theorem profile_conserves (r : Recording) (o : ProfileOptions) (hordered : ThreadOrdered r.events)
    (hfit : Replay.TicksFit o.strict (r.profiledEvents o)) :
    let events := r.profiledEvents o
    let replay := Replay.run o.strict events
    (r.profile o).anomalies.invalidDurations = 0 ∧
    (∀ tree ∈ replay.threadTrees, Replay.Conserved tree.2 ∧
      tree.2.inclusive ≤ scopeSpan (events.filter (·.thread == tree.1))) ∧
    Replay.Conserved replay.globalTree ∧
    (replay.hotspots.ranked.map fun row => row.2.exclusive).sum = replay.globalTree.inclusive := by
  intro events replay
  have hevents : ThreadOrdered events := threadOrdered_profiledEvents hordered o
  have htotal := Replay.sum_threadTrees hevents hfit
  obtain ⟨hsettled, hmerged⟩ := Node.settled_foldl_addAllTo (·.2.children) replay.threadTrees
    (fun tree htree => (Replay.trees_of_mem_threadTrees hevents hfit htree).1)
    Node.allSettled_nil (by rw [Node.inclusiveSum_nil, zero_add]; exact htotal.le.trans hfit.total)
  rw [Node.inclusiveSum_nil, zero_add] at hmerged
  obtain ⟨hglobal, hticks⟩ := Replay.conserved_root hsettled
    ((hmerged.trans htotal).le.trans hfit.total)
  refine ⟨?_, fun tree htree => ?_, hglobal, ?_⟩
  · show replay.totalAnomalies.invalidDurations = 0
    rw [Replay.invalidDurations_totalAnomalies]
    exact Replay.invalidDurations_run hevents hfit.scopes
  · obtain ⟨hown, hsum, hle⟩ := Replay.trees_of_mem_threadTrees hevents hfit htree
    have hroot : tree.2 = Node.root tree.2.children := by
      rw [Replay.eq_of_mem_threadTrees htree]
      rfl
    have hticksFit : Node.inclusiveSum tree.2.children ≤ TickRate.maxTicks := by
      rw [hsum]
      exact (Replay.exclusiveTicks_filter_le ..).trans hfit.total
    obtain ⟨hconserved, hinclusive⟩ := Replay.conserved_root hown hticksFit
    rw [← hroot] at hconserved hinclusive
    exact ⟨hconserved, hinclusive.le.trans hle⟩
  · exact (Replay.sum_rows hfit.total).trans ((hmerged.trans htotal).symm.trans hticks.symm)

/-- A scope that never ends, with one inside it, in a scope that does. -/
def Recording.abandoned : Recording where
  chunks := [[{ id := 1, thread := 1, timestamp := 0, kind := .scopeBegin },
    { id := 2, thread := 1, timestamp := 10, kind := .scopeBegin },
    { id := 3, thread := 1, timestamp := 20, kind := .scopeBegin },
    { id := 3, thread := 1, timestamp := 30, kind := .scopeEnd },
    { id := 1, thread := 1, timestamp := 50, kind := .scopeEnd }]]
  startTime := 0
  endTime := 50

/-- The scope inside goes to the one outside, and no time is lost. -/
theorem profile_conserves_abandoned :
    (Recording.abandoned.profile {}).anomalies.unmatchedBegin = 1 ∧
    (Recording.abandoned.profile {}).anomalies.invalidDurations = 0 ∧
    Replay.Conserved (Replay.run false Recording.abandoned.events).globalTree ∧
    ((Replay.run false Recording.abandoned.events).hotspots.ranked.map
      fun row => row.2.exclusive).sum =
        (Replay.run false Recording.abandoned.events).globalTree.inclusive ∧
    Replay.exclusiveTicks false Recording.abandoned.events = 50 := by
  have hordered : ThreadOrdered Recording.abandoned.events := fun t =>
    List.Pairwise.filter _ (by decide)
  have hfit : Replay.TicksFit false Recording.abandoned.events :=
    ⟨Replay.scopesFit_of_apart (by decide), by decide⟩
  obtain ⟨hvalid, -, hglobal, hrows⟩ := profile_conserves Recording.abandoned {} hordered hfit
  exact ⟨by decide, hvalid, hglobal, hrows, by decide⟩

end EventTrace
