import EventTrace.Proofs.Profile.Amounts
import EventTrace.Proofs.Profile.Replay
/-!
# Profile — rows and trees account for the same scopes

Hotspots take a scope as it closes; trees take it through joins, frames that
were abandoned and frames left open. An event adds the same to both
(`Replay.Tallied.apply`), so after any events a row is what the nodes of its
id amount to, in the tree of all threads and in the trees of the threads
(`hotspots_account`).
-/

namespace EventTrace

/-- What a row counts. -/
def IdTotals.amount (totals : IdTotals) : Amount :=
  (totals.count, totals.inclusive, totals.exclusive)

/-- A row stands for some scope, and so does every thread in it; and words
hold its ticks. -/
structure IdTotals.Counted (totals : IdTotals) : Prop where
  pos : 0 < totals.count
  threads : ∀ t n, totals.threads.get? t = some n → 0 < n
  fit : totals.amount.Fit

namespace Hotspots

variable {h : Hotspots} {closed : Option ClosedScope} {id t : Int}

/-- The totals of an id, none where it has no row. -/
def totals (h : Hotspots) (id : Int) : IdTotals := (h.ids.get? id).getD {}

/-- How many scopes of an id a thread closed. -/
def closedBy (h : Hotspots) (id t : Int) : Nat := ((h.totals id).threads.get? t).getD 0

/-- Nothing stands on record for no scope. -/
def Counted (h : Hotspots) : Prop := ∀ id totals, h.ids.get? id = some totals → totals.Counted

/-- The hotspots with a closed scope, if there is one, on record. -/
def recordAny (h : Hotspots) (closed : Option ClosedScope) : Hotspots := closed.elim h h.record

theorem get?_record (h : Hotspots) (scope : ClosedScope) (id : Int) :
    (h.record scope).ids.get? id =
      if id = scope.id then some ((h.totals scope.id).add scope) else h.ids.get? id :=
  Table.get?_alter ..

theorem totals_record (h : Hotspots) (scope : ClosedScope) (id : Int) :
    (h.record scope).totals id =
      if id = scope.id then (h.totals scope.id).add scope else h.totals id := by
  rw [totals, get?_record]
  split <;> rfl

/-- A record adds to the row of its id what its scope counts. -/
theorem amount_recordAny (h : Hotspots) (closed : Option ClosedScope) (id : Int) :
    ((h.recordAny closed).totals id).amount.words =
      (h.totals id).amount.words + (ClosedScope.amountOf id closed).words := by
  cases closed with
  | none => exact (add_zero _).symm
  | some scope =>
    show ((h.record scope).totals id).amount.words = _
    rw [totals_record, ClosedScope.amountOf]
    by_cases hid : id = scope.id
    · subst hid
      rw [if_pos rfl, if_pos rfl, ← map_add]
      exact Amount.words_wrapped ((h.totals scope.id).amount + scope.amount)
    · rw [if_neg hid, if_neg (Ne.symm hid), map_zero, add_zero]

/-- In the row of its id, a record adds one to its thread. -/
theorem closedBy_recordAny (h : Hotspots) (closed : Option ClosedScope) (id t : Int) :
    (h.recordAny closed).closedBy id t =
      h.closedBy id t +
        if closed.any (·.thread == t) then (ClosedScope.amountOf id closed).1 else 0 := by
  cases closed with
  | none => simp [recordAny]
  | some scope =>
    show (h.record scope).closedBy id t = _
    rw [closedBy, totals_record, ClosedScope.amountOf]
    by_cases hid : id = scope.id
    · subst hid
      rw [if_pos rfl, if_pos rfl]
      show (((h.totals scope.id).threads.alter scope.thread _).get? t).getD 0 = _
      rw [Table.get?_alter]
      by_cases ht : t = scope.thread
      · subst ht
        simp [closedBy, ClosedScope.amount]
      · simp [closedBy, ht, Ne.symm ht]
    · simp [closedBy, hid, Ne.symm hid]

theorem Counted.recordAny (hcounted : h.Counted) (closed : Option ClosedScope) :
    (h.recordAny closed).Counted := by
  cases closed with
  | none => exact hcounted
  | some scope =>
    intro id totals hrow
    have hrow : (h.record scope).ids.get? id = some totals := hrow
    rw [get?_record] at hrow
    by_cases hid : id = scope.id
    · rw [if_pos hid, Option.some.injEq] at hrow
      subst hrow
      refine ⟨Nat.succ_pos _, fun t n hn => ?_, Ticks.fit_wrap _, Ticks.fit_wrap _⟩
      have hn : ((h.totals scope.id).threads.alter scope.thread
        fun n => n.getD 0 + 1).get? t = some n := hn
      rw [Table.get?_alter] at hn
      split at hn
      · rw [← Option.some.inj hn]
        exact Nat.succ_pos _
      · cases hkept : h.ids.get? scope.id with
        | none =>
          rw [Hotspots.totals, hkept] at hn
          exact absurd hn (by simp [Table.get?, Table.find, EmptyCollection.emptyCollection,
            Table.empty])
        | some kept =>
          rw [Hotspots.totals, hkept] at hn
          exact (hcounted _ _ hkept).threads t n hn
    · rw [if_neg hid] at hrow
      exact hcounted id totals hrow

/-- An id has a row exactly if its totals count some scope. -/
theorem Counted.get?_iff (hcounted : h.Counted) :
    (∃ totals, h.ids.get? id = some totals) ↔ 0 < (h.totals id).count := by
  constructor
  · rintro ⟨totals, hrow⟩
    rw [Hotspots.totals, hrow]
    exact (hcounted id totals hrow).pos
  · intro hpos
    cases hrow : h.ids.get? id with
    | none =>
      rw [totals, hrow] at hpos
      exact absurd hpos (Nat.lt_irrefl 0)
    | some totals => exact ⟨totals, rfl⟩

end Hotspots

namespace Replay

variable {r : Replay} {events : List Event} {id t : Int}

/-- The forest of a thread. -/
def forestOf (r : Replay) (t : Int) : List Node := ((r.threads.get? t).getD {}).forest

/-- Rows and forests hold the same scopes. -/
structure Tallied (r : Replay) : Prop where
  amounts : ∀ id, (r.hotspots.totals id).amount.words =
    (r.threads.values.map fun s => (Node.amountOf id s.forest).words).sum
  closedBy : ∀ id t, r.hotspots.closedBy id t = (Node.amountOf id (r.forestOf t)).1
  rows : r.hotspots.Counted
  nodes : ∀ t, Node.AllCounted (r.forestOf t)

namespace Tallied

theorem empty : Tallied {} where
  amounts _ := rfl
  closedBy id _ := (congrArg Prod.fst (Node.amountOf_nil id)).symm
  rows _ _ h := nomatch h
  nodes _ := Node.allCounted_nil

/-- **An event adds the same to a row as to the forests.** -/
theorem apply (h : r.Tallied) (strict : Bool) (e : Event) : (r.apply strict e).Tallied := by
  obtain ⟨hgrown, hcounted⟩ := ThreadState.step_forest strict ((r.threads.get? e.thread).getD {}) e
  have hothers : ∀ t ≠ e.thread, (r.apply strict e).forestOf t = r.forestOf t := fun t ht => by
    show (((r.threads.insert e.thread _).get? t).getD {}).forest = _
    rw [Table.get?_insert_of_ne ht]
    rfl
  have hown : (r.apply strict e).forestOf e.thread =
      (((r.threads.get? e.thread).getD {}).step strict e).1.forest := by
    show (((r.threads.insert e.thread _).get? e.thread).getD {}).forest = _
    rw [Table.get?_insert_self]
    rfl
  refine ⟨fun id => ?_, fun id t => ?_, h.rows.recordAny _, fun t => ?_⟩
  · -- the table of threads changes in one value, by the scope that was closed
    have hempty : (Node.amountOf id ({} : ThreadState).forest).words = 0 :=
      congrArg Amount.words (Node.amountOf_nil id)
    have hsum := Table.sum_values_alter (fun s => (Node.amountOf id s.forest).words) r.threads
      e.thread (fun _ => (((r.threads.get? e.thread).getD {}).step strict e).1) {} hempty
    rw [hgrown id, add_comm (Amount.words _) (Amount.words _), ← add_assoc] at hsum
    show ((r.hotspots.recordAny _).totals id).amount.words = _
    rw [Hotspots.amount_recordAny, h.amounts]
    exact (add_right_cancel hsum).symm
  · show (r.hotspots.recordAny _).closedBy id t = _
    rw [Hotspots.closedBy_recordAny, h.closedBy]
    by_cases ht : t = e.thread
    · subst ht
      have hcount := Amount.fst_eq_of_words
        ((hgrown id).trans (map_add Amount.words _ _).symm)
      rw [hown, hcount]
      cases hclosed : (((r.threads.get? e.thread).getD {}).step strict e).2.closed with
      | none => simp [ClosedScope.amountOf, forestOf]
      | some scope =>
        have hthread := (ThreadState.measured_of_closed hclosed).1
        simp [hthread, forestOf]
    · rw [hothers t ht]
      cases hclosed : (((r.threads.get? e.thread).getD {}).step strict e).2.closed with
      | none => simp
      | some scope =>
        have hthread := (ThreadState.measured_of_closed hclosed).1
        simp [hthread, Ne.symm ht]
  · by_cases ht : t = e.thread
    · subst ht
      rw [hown]
      exact hcounted (h.nodes _)
    · rw [hothers t ht]
      exact h.nodes t

/-- **Rows and forests hold the same scopes after any events.** -/
theorem run (strict : Bool) (events : List Event) : (Replay.run strict events).Tallied := by
  induction events using List.reverseRecOn with
  | nil => exact empty
  | append_singleton events e ih =>
    rw [run_append]
    exact ih.apply strict e

end Tallied

/-! ## Trees -/

/-- A thread has a tree exactly if the replay has a row for it, and the tree
is that row's. -/
theorem mem_threadTrees {root : Node} :
    (t, root) ∈ r.threadTrees ↔
      ∃ s, r.threads.get? t = some s ∧ root = Node.root s.trees := by
  rw [threadTrees, List.mem_map]
  constructor
  · rintro ⟨row, hrow, heq⟩
    obtain ⟨rfl, rfl⟩ := Prod.mk.inj heq
    exact ⟨row.2, Table.mem_sorted_iff.mp hrow, rfl⟩
  · rintro ⟨s, hs, rfl⟩
    exact ⟨(t, s), Table.mem_sorted_iff.mpr hs, rfl⟩

/-- What the trees of the threads amount to is what their forests do. -/
theorem sum_amountOf_threadTrees (r : Replay) (id : Int) :
    (r.threadTrees.map fun tree => (Node.amountOf id tree.2.children).words).sum =
      (r.threads.values.map fun s => (Node.amountOf id s.forest).words).sum := by
  have hperm : r.threads.sorted.Perm r.threads.rows := List.mergeSort_perm ..
  rw [threadTrees, Table.values, List.map_map, List.map_map, (hperm.map _).sum_eq]
  congr 1
  exact List.map_congr_left fun row _ => (ThreadState.trees_forest row.2).1 id

/-- Trees merge into one that amounts to as much as all together. -/
theorem amountOf_merged (id : Int) (trees : List (Int × Node)) (merged : List Node) :
    (Node.amountOf id
        (trees.foldl (fun merged tree => Node.addAllTo tree.2.children merged) merged)).words =
      (Node.amountOf id merged).words +
        (trees.map fun tree => (Node.amountOf id tree.2.children).words).sum := by
  induction trees generalizing merged with
  | nil => exact (add_zero _).symm
  | cons tree rest ih =>
    rw [List.foldl_cons, ih, Node.words_amountOf_addAllTo, List.map_cons, List.sum_cons, add_assoc]

theorem allCounted_merged (trees : List (Int × Node))
    (h : ∀ tree ∈ trees, Node.AllCounted tree.2.children) {merged : List Node}
    (hmerged : Node.AllCounted merged) :
    Node.AllCounted
      (trees.foldl (fun merged tree => Node.addAllTo tree.2.children merged) merged) := by
  induction trees generalizing merged with
  | nil => exact hmerged
  | cons tree rest ih =>
    exact ih (fun tree htree => h tree (List.mem_cons_of_mem _ htree))
      (.addAllTo _ (h tree List.mem_cons_self) hmerged)

/-- What the tree of all threads amounts to. -/
theorem amountOf_globalTree (r : Replay) (id : Int) :
    (Node.amountOf id r.globalTree.children).words =
      (r.threadTrees.map fun tree => Node.amountOf id tree.2.children).sum.words := by
  show (Node.amountOf id (List.foldl _ [] _)).words = _
  rw [amountOf_merged, Node.amountOf_nil, map_zero, zero_add, map_list_sum, List.map_map]
  rfl

namespace Tallied

/-- Every node of the trees stands for some scope. -/
theorem trees (h : r.Tallied) {tree : Int × Node} (htree : tree ∈ r.threadTrees) :
    Node.AllCounted tree.2.children := by
  obtain ⟨s, hs, hroot⟩ := mem_threadTrees.mp htree
  have hforest := h.nodes tree.1
  rw [forestOf, hs] at hforest
  rw [hroot]
  exact (ThreadState.trees_forest s).2 hforest

theorem globalTree (h : r.Tallied) : Node.AllCounted r.globalTree.children :=
  allCounted_merged _ (fun _ htree => h.trees htree) Node.allCounted_nil

/-- The totals of an id are what the trees amount to. -/
theorem totals (h : r.Tallied) (id : Int) :
    (r.hotspots.totals id).amount.words =
      (r.threadTrees.map fun tree => Node.amountOf id tree.2.children).sum.words := by
  rw [h.amounts, ← sum_amountOf_threadTrees, map_list_sum, List.map_map]
  rfl

end Tallied

/-- A row that agrees with the trees: it counts what the nodes of its id
amount to in the tree of all threads, which is what they amount to in the
trees of the threads together, each sum of ticks as a word has it; and for
each thread as many scopes as there are in that thread's tree. -/
structure Accounts (r : Replay) (row : Int × IdTotals) : Prop where
  globalTree : row.2.amount = (Node.amountOf row.1 r.globalTree.children).wrapped
  threadTrees : row.2.amount =
    (r.threadTrees.map fun tree => Node.amountOf row.1 tree.2.children).sum.wrapped
  byThread : ∀ t n, (t, n) ∈ row.2.threads.sorted ↔
    0 < n ∧ ∃ root, (t, root) ∈ r.threadTrees ∧ (Node.amountOf row.1 root.children).1 = n

/-- The row of an id is what a look-up of the id finds. -/
theorem mem_ranked {h : Hotspots} {row : Int × IdTotals} :
    row ∈ h.ranked ↔ h.ids.get? row.1 = some row.2 :=
  (rankBy_perm _ _).mem_iff.trans ⟨Table.get?_of_mem, Table.mem_of_get?⟩

/-- A tree of a thread holds as many scopes of an id as its row has for the
thread. -/
theorem Tallied.closedBy_tree (h : r.Tallied) {root : Node} (hroot : (t, root) ∈ r.threadTrees) :
    (Node.amountOf id root.children).1 = r.hotspots.closedBy id t := by
  obtain ⟨s, hs, rfl⟩ := mem_threadTrees.mp hroot
  rw [h.closedBy, forestOf, hs]
  exact Amount.fst_eq_of_words ((ThreadState.trees_forest s).1 id)

/-- **Every row agrees with the trees.** -/
theorem Tallied.accounts (h : r.Tallied) {row : Int × IdTotals} (hrow : row ∈ r.hotspots.ranked) :
    r.Accounts row := by
  have hfound : r.hotspots.ids.get? row.1 = some row.2 := mem_ranked.mp hrow
  have htotals : r.hotspots.totals row.1 = row.2 := by rw [Hotspots.totals, hfound]; rfl
  have hsum := h.totals row.1
  rw [htotals] at hsum
  have hfit := (h.rows _ _ hfound).fit
  refine ⟨hfit.eq_wrapped_iff.mpr (by rw [amountOf_globalTree, hsum]),
    hfit.eq_wrapped_iff.mpr hsum, fun t n => ?_⟩
  rw [Table.mem_sorted_iff]
  have hclosed : r.hotspots.closedBy row.1 t = (row.2.threads.get? t).getD 0 := by
    rw [Hotspots.closedBy, htotals]
  constructor
  · intro hn
    have hpos := (h.rows _ _ hfound).threads t n hn
    rw [hn, Option.getD_some] at hclosed
    -- a thread without a tree has an empty forest and closed nothing
    cases hthread : r.threads.get? t with
    | none =>
      have hnone := h.closedBy row.1 t
      rw [forestOf, hthread, hclosed] at hnone
      have hempty : (Node.amountOf row.1 ((none : Option ThreadState).getD {}).forest).1 = 0 :=
        congrArg Prod.fst (Node.amountOf_nil row.1)
      omega
    | some s =>
      have hroot := mem_threadTrees.mpr ⟨s, hthread, rfl⟩
      exact ⟨hpos, Node.root s.trees, hroot, by rw [h.closedBy_tree hroot, hclosed]⟩
  · rintro ⟨hpos, root, hroot, rfl⟩
    rw [h.closedBy_tree hroot, hclosed] at hpos ⊢
    cases hn : row.2.threads.get? t with
    | none =>
      rw [hn] at hpos
      exact absurd hpos (Nat.lt_irrefl 0)
    | some n => rfl

/-- An id has a row exactly if the tree of all threads has a node of it, and
exactly if the tree of some thread has. -/
theorem Tallied.exists_row_iff (h : r.Tallied) (id : Int) :
    ((∃ row ∈ r.hotspots.ranked, row.1 = id) ↔
      ∃ n ∈ Node.nodesAll r.globalTree.children, n.id = id) ∧
    ((∃ row ∈ r.hotspots.ranked, row.1 = id) ↔
      ∃ tree ∈ r.threadTrees, ∃ n ∈ Node.nodesAll tree.2.children, n.id = id) := by
  have hrow : (∃ row ∈ r.hotspots.ranked, row.1 = id) ↔
      0 < (Node.amountOf id r.globalTree.children).1 := by
    have hcount := Amount.fst_eq_of_words ((h.totals id).trans (r.amountOf_globalTree id).symm)
    rw [← hcount]
    refine Iff.trans ?_ h.rows.get?_iff
    constructor
    · rintro ⟨row, hmem, rfl⟩
      exact ⟨row.2, mem_ranked.mp hmem⟩
    · rintro ⟨totals, hfound⟩
      exact ⟨(id, totals), mem_ranked.mpr hfound, rfl⟩
  refine ⟨hrow.trans (Node.exists_node_iff h.globalTree).symm, hrow.trans ?_⟩
  rw [Amount.fst_eq_of_words (r.amountOf_globalTree id), Amount.fst_sum_pos]
  constructor
  · rintro ⟨tree, htree, hpos⟩
    exact ⟨tree, htree, (Node.exists_node_iff (h.trees htree)).mpr hpos⟩
  · rintro ⟨tree, htree, hnode⟩
    exact ⟨tree, htree, (Node.exists_node_iff (h.trees htree)).mp hnode⟩

end Replay

/-! ## Reports -/

mutual

/-- How many scopes of an id a reported node counts, with the nodes below. -/
def CallNode.scopesOf (id : Int) : CallNode → Nat
  | ⟨i, _, count, _, _, children⟩ => (if i = id then count else 0) + scopesOfAll id children

/-- How many scopes of an id reported nodes count, with the nodes below. -/
def CallNode.scopesOfAll (id : Int) : List CallNode → Nat
  | [] => 0
  | node :: rest => scopesOf id node + scopesOfAll id rest

end

namespace Node

variable {rate : TickRate} {nameOf : Int → String} {ns : List Node}

mutual

theorem scopesOf_shown (id : Int) : ∀ n : Node,
    CallNode.scopesOf id (n.shown rate nameOf) = (amountOf id [n]).1
  | ⟨i, count, inclusive, exclusive, children⟩ => by
    have hbelow := scopesOfAll_shown id children
    rw [shown, CallNode.scopesOf, hbelow, amountOf_cons]
    by_cases hid : i = id <;> simp [hid, amount]

/-- Nodes count as reported what they count. -/
theorem scopesOfAll_shown (id : Int) : ∀ ns : List Node,
    CallNode.scopesOfAll id (shownAll rate nameOf ns) = (amountOf id ns).1
  | [] => by
    rw [shownAll, CallNode.scopesOfAll, amountOf_nil]
    rfl
  | n :: ns => by
    have hsplit : amountOf id (n :: ns) = amountOf id [n] + amountOf id ns :=
      amountOf_append id [n] ns
    rw [shownAll, CallNode.scopesOfAll, scopesOf_shown id n, scopesOfAll_shown id ns, hsplit]
    rfl

end

mutual

theorem isSome_find?_shown (id : Int) : ∀ n : Node,
    ((n.shown rate nameOf).find? id).isSome ↔ ∃ m ∈ n.nodes, m.id = id
  | ⟨i, count, inclusive, exclusive, children⟩ => by
    have hbelow := isSome_findIn?_shownAll id children
    rw [shown, CallNode.find?, nodes_eq]
    by_cases hid : i = id
    · simp [hid]
    · simpa [hid] using hbelow

/-- A node is found by its id in a report exactly if it is there. -/
theorem isSome_findIn?_shownAll (id : Int) : ∀ ns : List Node,
    (CallNode.findIn? id (shownAll rate nameOf ns)).isSome ↔ ∃ m ∈ nodesAll ns, m.id = id
  | [] => by
    rw [shownAll, CallNode.findIn?]
    simp
  | n :: ns => by
    have hfirst := isSome_find?_shown id n
    have hrest := isSome_findIn?_shownAll id ns
    rw [shownAll, CallNode.findIn?, nodesAll, Option.isSome_or, Bool.or_eq_true, hfirst, hrest]
    simp only [List.mem_append, or_and_right, exists_or]

end

end Node

namespace Recording

/-- The nodes under a root as reported. -/
theorem children_showRoot (r : Recording) (ns : List Node) :
    (r.showRoot (Node.root ns)).children = Node.shownAll r.rate r.nameOf
      (rankBy (fun child => (child.inclusive, child.id)) (Node.rankedAll ns)) := by
  rw [showRoot, Node.root, Node.ranked, Node.shown]

theorem scopesOf_showRoot (r : Recording) (ns : List Node) (id : Int) :
    CallNode.scopesOfAll id (r.showRoot (Node.root ns)).children = (Node.amountOf id ns).1 := by
  rw [children_showRoot, Node.scopesOfAll_shown, Node.amountOf_perm (rankBy_perm _ _),
    Node.amountOf_rankedAll]

theorem isSome_findIn?_showRoot (r : Recording) {ns : List Node} (h : Node.AllCounted ns)
    (id : Int) : (CallNode.findIn? id (r.showRoot (Node.root ns)).children).isSome ↔
      ∃ n ∈ Node.nodesAll ns, n.id = id := by
  have hranked := (Node.AllCounted.rankedAll ns h).perm
    (rankBy_perm (fun child => (child.inclusive, child.id)) _).symm
  rw [children_showRoot, Node.isSome_findIn?_shownAll, Node.exists_node_iff hranked,
    Node.amountOf_perm (rankBy_perm _ _), Node.amountOf_rankedAll, Node.exists_node_iff h]

end Recording

/-- A reported row that counts what the reported trees do, the tree of all
threads and the trees of the threads together. -/
structure HotspotRow.Accounts (p : Profile) (row : HotspotRow) : Prop where
  global : row.count = CallNode.scopesOfAll row.id p.global.children
  threads : row.count =
    (p.threads.map fun trace => CallNode.scopesOfAll row.id trace.root.children).sum

/-- A reported row that counts for each thread what the reported tree of the
thread does. -/
def HotspotRow.AccountsByThread (p : Profile) (row : HotspotRow) : Prop :=
  ∀ t n, (t, n) ∈ row.threads ↔ 0 < n ∧ ∃ trace ∈ p.threads,
    trace.thread = t ∧ CallNode.scopesOfAll row.id trace.root.children = n

namespace Recording

variable {r : Recording} {o : ProfileOptions} {row : HotspotRow}

/-- A reported row is a row in ticks. -/
theorem mem_hotspots_profile (hrow : row ∈ (r.profile o).hotspots) :
    ∃ totals, (row.id, totals) ∈
        (Replay.run o.strict (r.profiledEvents o)).hotspots.ranked ∧
      row.count = totals.count ∧ row.threads = totals.threads.sorted := by
  obtain ⟨⟨id, totals⟩, hmem, rfl⟩ := List.mem_map.mp hrow
  exact ⟨totals, hmem, rfl, rfl⟩

theorem scopesOf_global (r : Recording) (o : ProfileOptions) (id : Int) :
    CallNode.scopesOfAll id (r.profile o).global.children =
      (Node.amountOf id
        (Replay.run o.strict (r.profiledEvents o)).globalTree.children).1 :=
  r.scopesOf_showRoot _ id

/-- The reported trees of the threads count what that of all threads does. -/
theorem sum_scopesOf_threads (r : Recording) (o : ProfileOptions) (id : Int) :
    ((r.profile o).threads.map fun trace => CallNode.scopesOfAll id trace.root.children).sum =
      CallNode.scopesOfAll id (r.profile o).global.children := by
  have htraces : (r.profile o).threads = if o.byThread then
      (Replay.run o.strict (r.profiledEvents o)).threadTrees.map
        fun tree => ⟨tree.1, r.threadNames.get? tree.1, r.showRoot tree.2⟩
      else [⟨0, none, (r.profile o).global⟩] := rfl
  rw [htraces]
  split
  · rw [List.map_map, scopesOf_global, Amount.fst_eq_of_words (Replay.amountOf_globalTree _ id),
      Amount.fst_sum]
    congr 1
    refine List.map_congr_left fun tree htree => ?_
    obtain ⟨s, -, hroot⟩ := Replay.mem_threadTrees.mp htree
    show CallNode.scopesOfAll id (r.showRoot tree.2).children = _
    rw [hroot]
    exact r.scopesOf_showRoot _ id
  · simp

end Recording

/-- **Rows and trees account for the same closed scopes**, whatever the order
of the events and the damage to the nesting. Each id has at most one row, and
has one exactly if a node of it is in the tree of all threads, and exactly if
one is in the tree of some thread; its row counts the scopes and the ticks of
those nodes, wrapped around where no word holds them, and for each thread the
scopes of the nodes in the thread's tree. The report shows the same rows, over
the same trees. -/
theorem hotspots_account (r : Recording) (o : ProfileOptions) :
    let replay := Replay.run o.strict (r.profiledEvents o)
    let profile := r.profile o
    (replay.hotspots.ranked.map Prod.fst).Nodup ∧
    (∀ row ∈ replay.hotspots.ranked, replay.Accounts row) ∧
    (∀ id, ((∃ row ∈ replay.hotspots.ranked, row.1 = id) ↔
        ∃ n ∈ Node.nodesAll replay.globalTree.children, n.id = id) ∧
      ((∃ row ∈ replay.hotspots.ranked, row.1 = id) ↔
        ∃ tree ∈ replay.threadTrees, ∃ n ∈ Node.nodesAll tree.2.children, n.id = id)) ∧
    (profile.hotspots.map HotspotRow.id).Nodup ∧
    (∀ row ∈ profile.hotspots, row.Accounts profile ∧
      (o.byThread = true → row.AccountsByThread profile)) ∧
    (∀ id, (∃ row ∈ profile.hotspots, row.id = id) ↔
      (CallNode.findIn? id profile.global.children).isSome) := by
  intro replay profile
  have htallied : replay.Tallied := .run o.strict _
  have hdistinct : (replay.hotspots.ranked.map Prod.fst).Nodup :=
    ((rankBy_perm _ _).map _).nodup_iff.mpr replay.hotspots.ids.distinct
  have hids : profile.hotspots.map HotspotRow.id = replay.hotspots.ranked.map Prod.fst := by
    show List.map _ (List.map _ _) = _
    rw [List.map_map]
    rfl
  refine ⟨hdistinct, fun row => htallied.accounts, htallied.exists_row_iff, hids ▸ hdistinct,
    fun row hrow => ?_, fun id => ?_⟩
  · obtain ⟨totals, hmem, hcount, hthreads⟩ := Recording.mem_hotspots_profile hrow
    have haccounts := htallied.accounts hmem
    have hglobal : row.count = CallNode.scopesOfAll row.id profile.global.children := by
      rw [hcount, r.scopesOf_global o row.id]
      exact congrArg Prod.fst haccounts.globalTree
    refine ⟨⟨hglobal, by rw [hglobal, r.sum_scopesOf_threads]⟩, fun hgrouped t n => ?_⟩
    have htraces : profile.threads = replay.threadTrees.map
        fun tree => ⟨tree.1, r.threadNames.get? tree.1, r.showRoot tree.2⟩ := if_pos hgrouped
    rw [hthreads, haccounts.byThread, htraces]
    refine and_congr_right fun _ => ?_
    constructor
    · rintro ⟨root, hroot, rfl⟩
      obtain ⟨s, -, rfl⟩ := Replay.mem_threadTrees.mp hroot
      exact ⟨_, List.mem_map_of_mem hroot, rfl, r.scopesOf_showRoot _ _⟩
    · rintro ⟨trace, htrace, rfl, rfl⟩
      obtain ⟨tree, htree, rfl⟩ := List.mem_map.mp htrace
      obtain ⟨s, -, hroot⟩ := Replay.mem_threadTrees.mp htree
      refine ⟨tree.2, htree, ?_⟩
      rw [hroot]
      exact (r.scopesOf_showRoot _ _).symm
  · have hrows : (∃ row ∈ profile.hotspots, row.id = id) ↔
        ∃ row ∈ replay.hotspots.ranked, row.1 = id := by
      have hmem := congrArg (id ∈ ·) hids
      simpa [List.mem_map] using hmem
    rw [hrows, (htallied.exists_row_iff id).1]
    exact (r.isSome_findIn?_showRoot htallied.globalTree id).symm

end EventTrace
