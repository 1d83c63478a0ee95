import EventTrace.Proofs.Profile.Paths
/-!
# Profile — a call tree is a picture of the scopes

A thread whose begins and ends are nested has a forest of scopes; its call
tree has a node for each path of ids that some scope is on, and the node counts
the scopes of its path (`Node.Pictures`). A report shows the same, in
milliseconds (`CallNode.Shows`). The order of the events is told by the nesting
alone: scopes of one id may lie in each other or side by side, and what else is
recorded, on the thread or on others, leaves no trace.
-/

namespace EventTrace

/-- A tree that pictures scopes. -/
structure Node.Pictures (root : Node) (xs : List Scope) : Prop where
  /-- No two siblings share an id. -/
  siblings : ∀ n ∈ root.nodes, (n.children.map Node.id).Nodup
  /-- A path has a node exactly if it has a scope. -/
  there : ∀ path ≠ [], (∃ n, root.at? path = some n) ↔ Scope.atPath path xs ≠ []
  id : ∀ path ≠ [], ∀ n, root.at? path = some n → path.getLast? = some n.id
  count : ∀ path ≠ [], ∀ n, root.at? path = some n → n.count = (Scope.atPath path xs).length
  inclusive : ∀ path ≠ [], ∀ n, root.at? path = some n →
    n.inclusive = ((Scope.atPath path xs).map Scope.duration).sum
  exclusive : ∀ path ≠ [], ∀ n, root.at? path = some n →
    n.exclusive = ((Scope.atPath path xs).map Scope.exclusive).sum

/-- A reported tree that shows scopes. -/
structure CallNode.Shows (rate : TickRate) (nameOf : Int → String) (root : CallNode)
    (xs : List Scope) : Prop where
  siblings : ∀ path n, root.at? path = some n → (n.children.map CallNode.id).Nodup
  there : ∀ path ≠ [], (∃ n, root.at? path = some n) ↔ Scope.atPath path xs ≠ []
  /-- Each node shows its id, and the sums over the scopes of its path. -/
  figures : ∀ path ≠ [], ∀ n, root.at? path = some n →
    path.getLast? = some n.id ∧ n.name = nameOf n.id ∧
      n.count = (Scope.atPath path xs).length ∧
      n.inclusiveMs = rate.toMillis ((Scope.atPath path xs).map Scope.duration).sum ∧
      n.exclusiveMs = rate.toMillis ((Scope.atPath path xs).map Scope.exclusive).sum

namespace Scope

/-- What scopes count together. -/
theorem sum_amount (xs : List Scope) : (xs.map amount).sum =
    (xs.length, (xs.map duration).sum, (xs.map exclusive).sum) := by
  induction xs with
  | nil => rfl
  | cons x xs ih =>
    rw [List.map_cons, List.sum_cons, ih, amount, List.length_cons, Nat.add_comm, List.map_cons,
      List.sum_cons, List.map_cons, List.sum_cons]
    rfl

/-- Words hold what scopes take: each, those directly inside each together, and
those of each path together. -/
structure TicksFit (xs : List Scope) : Prop where
  brief : Brief xs
  paths : ∀ path, ((atPath path xs).map duration).sum ≤ TickRate.maxTicks

/-- Words hold what the scopes of a path count together. -/
theorem TicksFit.fit_atPath (h : TicksFit xs) (hlasting : Lasting xs) (path : List Int) :
    Amount.Fit ((atPath path xs).map amount).sum := by
  have hscopes : ∀ x ∈ atPath path xs, 0 ≤ x.exclusive ∧ x.exclusive ≤ x.duration := by
    intro x hx
    obtain ⟨p, hp, rfl⟩ := List.mem_map.mp hx
    have hp := List.mem_of_mem_filter hp
    have hle : 0 ≤ p.2.duration := sub_nonneg.mpr (hlasting p hp)
    have hchildren := (Lasting.children xs hlasting p hp).durations_nonneg
    rw [exclusive]
    omega
  have hnonneg : 0 ≤ ((atPath path xs).map exclusive).sum :=
    List.sum_nonneg fun ticks hticks => by
      obtain ⟨x, hx, rfl⟩ := List.mem_map.mp hticks
      exact (hscopes x hx).1
  have hless : ((atPath path xs).map exclusive).sum ≤ ((atPath path xs).map duration).sum :=
    List.sum_le_sum fun x hx => (hscopes x hx).2
  have hpath := h.paths path
  rw [sum_amount]
  simp only [Amount.Fit, Ticks.Fit, TickRate.minTicks, TickRate.maxTicks] at *
  omega

/-- It is enough that words hold what all scopes take together. -/
theorem ticksFit_of_total (hlasting : Lasting xs) (hbrief : Brief xs)
    (htotal : ((placedAll xs).map fun p => p.2.duration).sum ≤ TickRate.maxTicks) :
    TicksFit xs where
  brief := hbrief
  paths path := by
    have hnonneg : ∀ ticks ∈ (placedAll xs).map fun p => p.2.duration, 0 ≤ ticks := by
      intro ticks hticks
      obtain ⟨p, hp, rfl⟩ := List.mem_map.mp hticks
      exact sub_nonneg.mpr (hlasting p hp)
    have hsome : ((placedAll xs).filter (·.1 == path)).Sublist (placedAll xs) := List.filter_sublist
    have hle := (hsome.map fun p => p.2.duration).sum_le_sum hnonneg
    rw [atPath, List.map_map]
    exact hle.trans htotal

/-- The tree of some scopes. -/
def tree (xs : List Scope) : Node := Node.root (Node.addAllTo (nodes xs) [])

theorem distinct_tree (xs : List Scope) : Node.Distinct (tree xs).children :=
  .addAllTo _ (distinct_nodes xs) Node.distinct_nil

/-- What the tree has on a path counts the scopes of the path. -/
theorem words_at?_tree {path : List Int} (hpath : path ≠ []) (xs : List Scope) :
    ((((tree xs).at? path).map Node.amount).getD 0).words =
      ((atPath path xs).map amount).sum.words := by
  cases path with
  | nil => exact absurd rfl hpath
  | cons id path =>
    rw [← Node.amountAt_eq _ (distinct_tree xs), Node.amountAt_cons, tree, Node.root,
      Node.words_amountIn_addAllTo, Node.amountIn_nil, map_zero, zero_add, words_amountIn_nodes]

/-- **The tree of scopes pictures them.** -/
theorem pictures_tree (hlasting : Lasting xs) (hfit : TicksFit xs) : (tree xs).Pictures xs := by
  have hcounted : Node.AllCounted (tree xs).children :=
    .addAllTo _ (allCounted_nodes xs hlasting hfit.brief) Node.allCounted_nil
  have hamount : ∀ path ≠ [], ∀ n, (tree xs).at? path = some n →
      n.amount = ((atPath path xs).length, ((atPath path xs).map duration).sum,
        ((atPath path xs).map exclusive).sum) := by
    intro path hpath n hn
    obtain ⟨id, rest, rfl⟩ := List.exists_cons_of_ne_nil hpath
    have hat := words_at?_tree hpath xs
    rw [hn, Option.map_some, Option.getD_some] at hat
    -- words hold both, so they are told apart by them
    have hnode := (hcounted n (Node.mem_nodesAll_of_at? hn)).fit
    rw [← sum_amount]
    exact (hnode.eq_iff (hfit.fit_atPath hlasting _)).mpr hat
  refine ⟨?_, ?_, fun path hpath n hn => Node.id_of_at? hpath hn, ?_, ?_, ?_⟩
  · intro n hn
    rw [Node.nodes_eq] at hn
    rcases List.mem_cons.mp hn with rfl | hn
    · exact (distinct_tree xs).1
    · exact (distinct_tree xs).2 n hn
  · intro path hpath
    constructor
    · rintro ⟨n, hn⟩ hempty
      -- every node stands for some scope
      have hcount : n.count = 0 := by
        have hfst := congrArg Prod.fst (hamount path hpath n hn)
        rwa [hempty] at hfst
      obtain ⟨id, rest, rfl⟩ := List.exists_cons_of_ne_nil hpath
      have hpos := (hcounted n (Node.mem_nodesAll_of_at? hn)).pos
      omega
    · intro hsome
      have hat := words_at?_tree hpath xs
      cases hn : (tree xs).at? path with
      | some n => exact ⟨n, rfl⟩
      | none =>
        rw [hn, Option.map_none, Option.getD_none, sum_amount] at hat
        have hlength : 0 = (atPath path xs).length := Amount.fst_eq_of_words hat
        exact absurd (List.length_eq_zero_iff.mp hlength.symm) hsome
  · exact fun path hpath n hn => congrArg Prod.fst (hamount path hpath n hn)
  · exact fun path hpath n hn => congrArg (fun a => a.2.1) (hamount path hpath n hn)
  · exact fun path hpath n hn => congrArg (fun a => a.2.2) (hamount path hpath n hn)

end Scope

namespace Recording

variable {r : Recording} {o : ProfileOptions} {scopes : Int → List Scope}

/-- A reported root shows on each path what the tree has there. -/
theorem at?_showRoot (r : Recording) {root : Node} (h : Node.Distinct root.children)
    {path : List Int} (hpath : path ≠ []) : (r.showRoot root).at? path =
      (root.at? path).map fun n => n.ranked.shown r.rate r.nameOf := by
  obtain ⟨id, rest, rfl⟩ := List.exists_cons_of_ne_nil hpath
  have hroot : (r.showRoot root).at? (id :: rest) =
      (root.ranked.shown r.rate r.nameOf).at? (id :: rest) := rfl
  rw [hroot, Node.at?_shown, Node.at?_ranked _ h, Option.map_map]
  rfl

/-- **A report of the tree of scopes shows them.** -/
theorem shows_tree (r : Recording) {xs : List Scope} (hlasting : Scope.Lasting xs)
    (hfit : Scope.TicksFit xs) : (r.showRoot (Scope.tree xs)).Shows r.rate r.nameOf xs := by
  have hdistinct := Scope.distinct_tree xs
  have hpictures := Scope.pictures_tree hlasting hfit
  have hids : ∀ n : Node, ((n.ranked.shown r.rate r.nameOf).children.map CallNode.id).Perm
      (n.children.map Node.id) := by
    intro n
    have hshown : (n.ranked.shown r.rate r.nameOf).children.map CallNode.id =
        n.ranked.children.map Node.id := by
      rw [Node.shown_eq, List.map_map]
      exact List.map_congr_left fun c _ => by rw [Function.comp_apply, Node.shown_eq]
    rw [hshown]
    refine (n.children_ranked.map Node.id).trans (List.Perm.of_eq ?_)
    rw [List.map_map]
    exact List.map_congr_left fun c _ => c.id_ranked
  refine ⟨?_, ?_, ?_⟩
  · intro path n hn
    cases path with
    | nil =>
      obtain rfl : r.showRoot (Scope.tree xs) = n := Option.some.inj hn
      exact (hids _).nodup_iff.mpr hdistinct.1
    | cons id rest =>
      rw [r.at?_showRoot hdistinct (by simp), Option.map_eq_some_iff] at hn
      obtain ⟨m, hm, rfl⟩ := hn
      exact (hids m).nodup_iff.mpr (hdistinct.2 m (Node.mem_nodesAll_of_at? hm))
  · intro path hpath
    rw [← hpictures.there path hpath, r.at?_showRoot hdistinct hpath]
    simp only [Option.map_eq_some_iff]
    constructor
    · rintro ⟨_, m, hm, -⟩
      exact ⟨m, hm⟩
    · rintro ⟨m, hm⟩
      exact ⟨_, m, hm, rfl⟩
  · intro path hpath n hn
    rw [r.at?_showRoot hdistinct hpath, Option.map_eq_some_iff] at hn
    obtain ⟨m, hm, rfl⟩ := hn
    have hamount := m.amount_ranked
    simp only [Node.amount, Prod.mk.injEq] at hamount
    obtain ⟨hcount, hinclusive, hexclusive⟩ := hamount
    rw [Node.shown_eq]
    refine ⟨?_, rfl, ?_, ?_, ?_⟩
    · rw [hpictures.id path hpath m hm, m.id_ranked]
    · rw [hcount, hpictures.count path hpath m hm]
    · rw [hinclusive, hpictures.inclusive path hpath m hm]
    · rw [hexclusive, hpictures.exclusive path hpath m hm]

/-- What a profile replays of a thread tells its scopes, or none if the thread
is left out. -/
theorem nests_profiledEvents (hnests : ∀ t, Nests (r.events.filter (·.thread == t)) (scopes t))
    (o : ProfileOptions) (t : Int) : Nests ((r.profiledEvents o).filter (·.thread == t))
      (if o.onlyThread.all (· == t) then scopes t else []) := by
  unfold profiledEvents
  cases o.onlyThread with
  | none => exact hnests t
  | some only =>
    by_cases honly : only = t
    · subst honly
      simpa [List.filter_filter] using hnests only
    · have hnone : (r.events.filter (·.thread == only)).filter (·.thread == t) = [] := by
        refine List.filter_eq_nil_iff.mpr fun e he hboth => honly ?_
        exact (beq_iff_eq.mp (List.mem_filter.mp he).2).symm.trans (beq_iff_eq.mp hboth)
      simpa [hnone, honly] using Nests.nil

/-- **The tree of a thread is the tree of its scopes**, and a thread with scopes
has one. -/
theorem threadTrees_of_nests (hnests : ∀ t, Nests (r.events.filter (·.thread == t)) (scopes t))
    (hlasting : ∀ t, Scope.Lasting (scopes t)) (hbrief : ∀ t, Scope.Brief (scopes t))
    (o : ProfileOptions) :
    (∀ tree ∈ (Replay.run o.strict (r.profiledEvents o)).threadTrees,
      o.onlyThread.all (· == tree.1) = true ∧ tree.2 = Scope.tree (scopes tree.1)) ∧
    ∀ t, o.onlyThread.all (· == t) = true → scopes t ≠ [] →
      (t, Scope.tree (scopes t)) ∈ (Replay.run o.strict (r.profiledEvents o)).threadTrees := by
  have hprofiled := nests_profiledEvents hnests o
  have htree : ∀ t, o.onlyThread.all (· == t) = true → Node.root (ThreadState.run o.strict
      ((r.profiledEvents o).filter (·.thread == t))).trees = Scope.tree (scopes t) := by
    intro t ht
    have hown := hprofiled t
    rw [if_pos ht] at hown
    rw [hown.run_eq (hlasting t) (hbrief t) o.strict]
    rfl
  refine ⟨fun tree hmem => ?_, fun t ht hscopes => ?_⟩
  · obtain ⟨s, hs, hroot⟩ := Replay.mem_threadTrees.mp hmem
    rw [Replay.get?_run_eq] at hs
    split at hs
    · next hthread =>
      obtain ⟨e, he, hthread⟩ := List.mem_map.mp hthread
      have hin : o.onlyThread.all (· == tree.1) = true := by
        unfold profiledEvents at he
        cases honly : o.onlyThread with
        | none => rfl
        | some only =>
          rw [honly] at he
          rw [Option.all_some, ← hthread]
          exact beq_iff_eq.mpr (beq_iff_eq.mp (List.mem_filter.mp he).2).symm
      rw [← Option.some.inj hs] at hroot
      exact ⟨hin, hroot.trans (htree tree.1 hin)⟩
    · exact absurd hs (by simp)
  · refine Replay.mem_threadTrees.mpr ⟨_, ?_, (htree t ht).symm⟩
    rw [Replay.get?_run_eq, if_pos]
    -- a thread without events would have no scopes
    by_contra hthread
    have hown := hprofiled t
    rw [if_pos ht, List.filter_eq_nil_iff.mpr fun e he hboth =>
      hthread (List.mem_map.mpr ⟨e, he, beq_iff_eq.mp hboth⟩)] at hown
    generalize scopes t = xs at hown hscopes
    cases hown with
    | nil => exact hscopes rfl

/-- **A call tree means its scopes.** If the begins and ends of each thread are
nested and all closed, no scope ends before it begins, and words hold what the
scopes take, a profile finds no damage, strict or not, and the tree of each
thread it replays pictures the scopes of the thread: siblings have distinct ids,
a path of ids has a node exactly if some scope has it for the ids of the scopes
around it and its own, and the node counts these scopes, their ticks, and what
the scopes directly inside leave of them. A profile by threads shows it so, and
every thread with scopes is among its threads. -/
theorem trees_picture_scopes (r : Recording) (o : ProfileOptions) (scopes : Int → List Scope)
    (hnests : ∀ t, Nests (r.events.filter (·.thread == t)) (scopes t))
    (hlasting : ∀ t, Scope.Lasting (scopes t)) (hfit : ∀ t, Scope.TicksFit (scopes t)) :
    (r.profile o).anomalies = {} ∧
    (∀ tree ∈ (Replay.run o.strict (r.profiledEvents o)).threadTrees,
      tree.2.Pictures (scopes tree.1)) ∧
    (∀ t, o.onlyThread.all (· == t) = true → scopes t ≠ [] →
      ∃ root, (t, root) ∈ (Replay.run o.strict (r.profiledEvents o)).threadTrees) ∧
    (o.byThread = true →
      (∀ trace ∈ (r.profile o).threads, trace.root.Shows r.rate r.nameOf (scopes trace.thread)) ∧
      ∀ t, o.onlyThread.all (· == t) = true → scopes t ≠ [] →
        ((r.profile o).thread? t).isSome = true) := by
  have hbrief := fun t => (hfit t).brief
  obtain ⟨htrees, hthere⟩ := threadTrees_of_nests hnests hlasting hbrief o
  refine ⟨?_, ?_, fun t ht hscopes => ⟨_, hthere t ht hscopes⟩, fun hby => ?_⟩
  · refine Replay.totalAnomalies_of_nests o.strict (nests_profiledEvents hnests o) (fun t => ?_)
      fun t => ?_
    · split
      · exact hlasting t
      · exact Scope.lasting_nil
    · split
      · exact hbrief t
      · exact Scope.brief_nil
  · intro tree hmem
    rw [(htrees tree hmem).2]
    exact Scope.pictures_tree (hlasting _) (hfit _)
  · have hthreads : (r.profile o).threads =
        (Replay.run o.strict (r.profiledEvents o)).threadTrees.map fun tree =>
          ⟨tree.1, r.threadNames.get? tree.1, r.showRoot tree.2⟩ := if_pos hby
    refine ⟨fun trace hmem => ?_, fun t ht hscopes => ?_⟩
    · rw [hthreads] at hmem
      obtain ⟨tree, htree, rfl⟩ := List.mem_map.mp hmem
      dsimp only
      rw [(htrees tree htree).2]
      exact r.shows_tree (hlasting _) (hfit _)
    · rw [Profile.thread?, hthreads]
      refine List.find?_isSome.mpr ⟨_, List.mem_map_of_mem (hthere t ht hscopes), ?_⟩
      exact beq_self_eq_true t

/-- A mark of a thread at some time. -/
def mark (thread id timestamp : Int) (kind : Kind) : Event := { id, thread, timestamp, kind }

/-- A scope of one thread holds two of another id, of which the second holds
one of the first id; another thread has a scope of no length meanwhile. -/
def recursive : Recording where
  chunks := [
    [mark 1 1 0 .scopeBegin, mark 1 2 10 .scopeBegin, mark 1 5 12 .instant, mark 1 2 20 .scopeEnd],
    [mark 2 7 5 .scopeBegin, mark 2 7 5 .scopeEnd],
    [mark 1 2 30 .scopeBegin, mark 1 1 32 .scopeBegin, mark 1 1 38 .scopeEnd,
      mark 1 2 40 .scopeEnd, mark 1 1 50 .scopeEnd]]
  startTime := 0
  endTime := 50

/-- The scopes of the two threads. -/
def recursiveScopes (t : Int) : List Scope :=
  if t = 1 then [⟨1, 0, 50, [⟨2, 10, 20, []⟩, ⟨2, 30, 40, [⟨1, 32, 38, []⟩]⟩]⟩]
  else if t = 2 then [⟨7, 5, 5, []⟩]
  else []

/-- The two scopes side by side have one node, and the one inside them is not
that of the outermost. -/
theorem trees_picture_scopes_recursive :
    (recursive.profile {}).anomalies = {} ∧
    (∀ tree ∈ (Replay.run false recursive.events).threadTrees,
      tree.2.Pictures (recursiveScopes tree.1)) ∧
    (∀ trace ∈ (recursive.profile {}).threads,
      trace.root.Shows recursive.rate recursive.nameOf (recursiveScopes trace.thread)) ∧
    ((recursive.profile {}).thread? 1).isSome = true ∧
    (Scope.atPath [1, 2] (recursiveScopes 1)).map Scope.amount = [(1, 10, 10), (1, 10, 4)] ∧
    (Scope.atPath [1] (recursiveScopes 1)).map Scope.amount = [(1, 50, 30)] := by
  have hnests : ∀ t, Nests (recursive.events.filter (·.thread == t)) (recursiveScopes t) := by
    intro t
    by_cases hone : t = 1
    · subst hone
      have hinner := Nests.scope (b := mark 1 1 32 .scopeBegin) (e := mark 1 1 38 .scopeEnd)
        rfl rfl rfl .nil .nil
      have hsecond := Nests.scope (b := mark 1 2 30 .scopeBegin) (e := mark 1 2 40 .scopeEnd)
        rfl rfl rfl hinner .nil
      have hboth := Nests.scope (b := mark 1 2 10 .scopeBegin) (e := mark 1 2 20 .scopeEnd)
        rfl rfl rfl (.other (e := mark 1 5 12 .instant) rfl .nil) hsecond
      exact Nests.scope (b := mark 1 1 0 .scopeBegin) (e := mark 1 1 50 .scopeEnd)
        rfl rfl rfl hboth .nil
    · by_cases htwo : t = 2
      · subst htwo
        exact Nests.scope (b := mark 2 7 5 .scopeBegin) (e := mark 2 7 5 .scopeEnd)
          rfl rfl rfl .nil .nil
      · have hnone : recursive.events.filter (·.thread == t) = [] := by
          simp [recursive, events, mark, Ne.symm hone, Ne.symm htwo]
        rw [hnone, recursiveScopes, if_neg hone, if_neg htwo]
        exact .nil
  have hlasting : ∀ t, Scope.Lasting (recursiveScopes t) := by
    intro t
    unfold recursiveScopes
    split
    · simp [Scope.lasting_cons, Scope.lasting_nil]
    · split
      · simp [Scope.lasting_cons, Scope.lasting_nil]
      · exact Scope.lasting_nil
  have hfit : ∀ t, Scope.TicksFit (recursiveScopes t) := by
    intro t
    refine Scope.ticksFit_of_total (hlasting t) ?_ ?_
    · unfold recursiveScopes Scope.Brief
      split
      · decide +kernel
      · split <;> decide +kernel
    · unfold recursiveScopes
      split
      · decide +kernel
      · split <;> decide +kernel
  obtain ⟨hclean, hpictures, -, hreport⟩ :=
    trees_picture_scopes recursive {} recursiveScopes hnests hlasting hfit
  obtain ⟨hshows, hthere⟩ := hreport rfl
  exact ⟨hclean, hpictures, hshows, hthere 1 rfl (by simp [recursiveScopes]), by decide +kernel,
    by decide +kernel⟩

end Recording

end EventTrace
