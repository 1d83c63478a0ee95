import EventTrace.Proofs.Profile.Scopes
/-!
# Profile — nodes by the ids on the way to them

Siblings of a call tree have distinct ids, and joining keeps it so
(`Node.Distinct.addAllTo`); so the ids on the way to a node name it. Joining
trees adds, path by path, what their nodes of that path count, as far as words
hold it (`Node.words_amountIn_addAllTo`), and the nodes of scopes count what the
scopes do (`Scope.words_amountIn_nodes`). Ranking and conversion move no node to
another path (`CallNode.at?_shown`), so a report shows the same sums.
-/

namespace EventTrace

/-- The node on a path of ids below a node. -/
def Node.at? : List Int → Node → Option Node
  | [], n => some n
  | id :: path, n => (n.children.find? (·.id == id)).bind (at? path)

/-- The node on a path of ids below a reported node. -/
def CallNode.at? : List Int → CallNode → Option CallNode
  | [], n => some n
  | id :: path, n => (n.child? id).bind (at? path)

namespace Node

variable {n : Node} {ns siblings : List Node} {id : Int} {path : List Int}

/-! ## What the nodes of a path count -/

/-- What the nodes on a path below a node count, if siblings may share ids. -/
def amountAt : List Int → Node → Amount
  | [], n => n.amount
  | id :: path, n => (n.children.map fun c => if c.id = id then amountAt path c else 0).sum

/-- What the nodes on a path count, from some siblings on. -/
def amountIn (path : List Int) (ns : List Node) : Amount :=
  match path with
  | [] => 0
  | id :: path => (ns.map fun c => if c.id = id then amountAt path c else 0).sum

theorem amountAt_cons (id : Int) (path : List Int) (n : Node) :
    amountAt (id :: path) n = amountIn (id :: path) n.children := by
  rw [amountAt, amountIn]

@[simp] theorem amountIn_nil (path : List Int) : amountIn path [] = 0 := by
  cases path <;> rfl

theorem amountIn_cons (path : List Int) (n : Node) (ns : List Node) :
    amountIn path (n :: ns) = amountIn path [n] + amountIn path ns := by
  cases path with
  | nil => exact (add_zero 0).symm
  | cons id path => simp [amountIn]

/-- **Joining adds what the nodes of each path count.** -/
theorem words_amountIn_addAllTo (path : List Int) (ns siblings : List Node) :
    (amountIn path (addAllTo ns siblings)).words =
      (amountIn path siblings).words + (amountIn path ns).words := by
  induction path generalizing ns siblings with
  | nil => exact (add_zero 0).symm
  | cons id path ih =>
    -- a node that joins one of its id adds to it and to what is below it
    have hjoin : ∀ (s n : Node), (amountAt path ⟨s.id, s.count + n.count,
        Ticks.wrap (s.inclusive + n.inclusive), Ticks.wrap (s.exclusive + n.exclusive),
        addAllTo n.children s.children⟩).words =
          (amountAt path s).words + (amountAt path n).words := by
      intro s n
      cases path with
      | nil => exact (Amount.words_wrapped (s.amount + n.amount)).trans (map_add ..)
      | cons j path => rw [amountAt_cons, amountAt_cons, amountAt_cons, ih]
    have hadd : ∀ (n : Node) (siblings : List Node),
        (amountIn (id :: path) (addTo n siblings)).words =
          (amountIn (id :: path) siblings).words + (amountIn (id :: path) [n]).words := by
      rintro ⟨i, count, inclusive, exclusive, children⟩ siblings
      rw [addTo]
      induction siblings with
      | nil => rw [place, amountIn_nil, map_zero, zero_add]
      | cons s rest ihrest =>
        rw [place]
        split
        · next hs =>
          have hs : s.id = i := hs
          subst hs
          have hjoined := hjoin s ⟨s.id, count, inclusive, exclusive, children⟩
          dsimp only at hjoined
          rw [amountIn_cons, amountIn_cons (id :: path) s rest]
          simp only [amountIn, List.map_cons, List.map_nil, List.sum_cons, List.sum_nil, add_zero,
            map_add]
          split
          · rw [hjoined]
            abel
          · rw [map_zero]
            abel
        · rw [amountIn_cons, map_add, ihrest, amountIn_cons (id :: path) s rest, map_add, add_assoc]
    induction ns generalizing siblings with
    | nil => rw [addAllTo, amountIn_nil, map_zero, add_zero]
    | cons n ns ihns =>
      rw [addAllTo, ihns, hadd, amountIn_cons (id :: path) n ns, map_add, add_assoc]

/-! ## Distinct siblings -/

/-- No two siblings share an id, at any level. -/
def Distinct (ns : List Node) : Prop :=
  (ns.map Node.id).Nodup ∧ ∀ n ∈ nodesAll ns, (n.children.map Node.id).Nodup

theorem distinct_nil : Distinct [] := by simp [Distinct]

theorem distinct_cons :
    Distinct (n :: ns) ↔ n.id ∉ ns.map Node.id ∧ Distinct n.children ∧ Distinct ns := by
  simp only [Distinct, nodesAll_cons, List.map_cons, List.nodup_cons, List.mem_cons,
    List.mem_append, or_imp, forall_and, forall_eq]
  tauto

theorem Distinct.of_mem (h : Distinct ns) (hn : n ∈ ns) : Distinct n.children := by
  induction ns with
  | nil => exact absurd hn List.not_mem_nil
  | cons m ns ih =>
    obtain ⟨-, hm, hns⟩ := distinct_cons.mp h
    rcases List.mem_cons.mp hn with rfl | hn
    · exact hm
    · exact ih hns hn

/-- Adding a node brings no id but its own. -/
theorem mem_ids_addTo {n : Node} {siblings : List Node} {id : Int}
    (h : id ∈ (addTo n siblings).map Node.id) : id = n.id ∨ id ∈ siblings.map Node.id := by
  obtain ⟨i, count, inclusive, exclusive, children⟩ := n
  rw [addTo] at h
  induction siblings with
  | nil => exact .inl (by simpa [place] using h)
  | cons s rest ih =>
    rw [place] at h
    split at h
    · exact .inr (by simpa using h)
    · rcases List.mem_cons.mp h with h | h
      · exact .inr (h ▸ List.mem_cons_self)
      · exact (ih h).imp_right (List.mem_cons_of_mem _)

mutual

theorem Distinct.addTo : ∀ (n : Node) {siblings : List Node}, Distinct n.children →
    Distinct siblings → Distinct (Node.addTo n siblings)
  | ⟨i, count, inclusive, exclusive, children⟩, siblings, hchildren, hsiblings => by
    have hids := fun rest => @mem_ids_addTo ⟨i, count, inclusive, exclusive, children⟩ rest
    simp only [Node.addTo] at hids ⊢
    induction siblings with
    | nil => exact distinct_cons.mpr ⟨by simp, hchildren, distinct_nil⟩
    | cons s rest ih =>
      obtain ⟨hs, hbelow, hrest⟩ := distinct_cons.mp hsiblings
      rw [place]
      split
      · exact distinct_cons.mpr ⟨hs,
          Distinct.addAllTo children (fun c hc => hchildren.of_mem hc) hbelow, hrest⟩
      · next hne =>
        refine distinct_cons.mpr ⟨fun hmem => ?_, hbelow, ih hrest⟩
        rcases hids rest hmem with heq | hmem
        · exact hne heq
        · exact hs hmem

/-- **Joining leaves siblings distinct.** -/
theorem Distinct.addAllTo : ∀ (ns : List Node) {siblings : List Node},
    (∀ n ∈ ns, Distinct n.children) → Distinct siblings → Distinct (Node.addAllTo ns siblings)
  | [], siblings, _, hsiblings => by
    rw [Node.addAllTo]
    exact hsiblings
  | n :: ns, siblings, hns, hsiblings => by
    rw [Node.addAllTo]
    exact Distinct.addAllTo ns (fun m hm => hns m (List.mem_cons_of_mem _ hm))
      (Distinct.addTo n (hns n List.mem_cons_self) hsiblings)

end

/-! ## Nodes on paths -/

/-- Among distinct siblings the one of an id is found. -/
theorem find?_eq_some_iff (h : (ns.map Node.id).Nodup) :
    ns.find? (·.id == id) = some n ↔ n ∈ ns ∧ n.id = id := by
  constructor
  · intro hfind
    exact ⟨List.mem_of_find?_eq_some hfind, by simpa using List.find?_some hfind⟩
  · rintro ⟨hn, rfl⟩
    have hfound : (ns.find? (·.id == n.id)).isSome :=
      List.find?_isSome.mpr ⟨n, hn, beq_self_eq_true n.id⟩
    obtain ⟨m, hm⟩ := Option.isSome_iff_exists.mp hfound
    have hid : m.id = n.id := by simpa using List.find?_some hm
    rw [hm, List.inj_on_of_nodup_map h (List.mem_of_find?_eq_some hm) hn hid]

/-- The order of distinct siblings does not matter for finding one. -/
theorem find?_perm {ms : List Node} (hperm : ms.Perm ns) (h : (ns.map Node.id).Nodup) :
    ms.find? (·.id == id) = ns.find? (·.id == id) := by
  refine Option.ext fun n => ?_
  rw [find?_eq_some_iff ((hperm.map _).nodup_iff.mpr h), find?_eq_some_iff h, hperm.mem_iff]

/-- Of distinct siblings at most the one found counts for an id. -/
theorem sum_eq_find? (h : (ns.map Node.id).Nodup) (f : Node → Amount) :
    (ns.map fun c => if c.id = id then f c else 0).sum =
      ((ns.find? (·.id == id)).map f).getD 0 := by
  induction ns with
  | nil => rfl
  | cons n ns ih =>
    rw [List.map_cons, List.nodup_cons] at h
    rw [List.map_cons, List.sum_cons, ih h.2]
    by_cases hid : n.id = id
    · have hnone : ns.find? (·.id == id) = none := by
        refine List.find?_eq_none.mpr fun m hm heq => h.1 ?_
        rw [hid, ← beq_iff_eq.mp heq]
        exact List.mem_map_of_mem hm
      rw [hnone, List.find?_cons_of_pos (by simpa using hid), if_pos hid]
      exact add_zero _
    · rw [List.find?_cons_of_neg (by simpa using hid), if_neg hid, zero_add]

/-- **A node on a path counts what the nodes of that path do**, and where none
is they count nothing. -/
theorem amountAt_eq (path : List Int) {n : Node} (h : Distinct n.children) :
    amountAt path n = ((n.at? path).map amount).getD 0 := by
  induction path generalizing n with
  | nil => rfl
  | cons id path ih =>
    rw [amountAt, at?, sum_eq_find? h.1]
    cases hfind : n.children.find? (·.id == id) with
    | none => rfl
    | some c => exact ih (h.of_mem (List.mem_of_find?_eq_some hfind))

/-- A node and what is below it are among all nodes of its siblings. -/
theorem mem_nodesAll_of_mem {m : Node} (hn : n ∈ ns) (hm : m = n ∨ m ∈ nodesAll n.children) :
    m ∈ nodesAll ns := by
  induction ns with
  | nil => exact absurd hn List.not_mem_nil
  | cons first ns ih =>
    rw [nodesAll_cons]
    rcases List.mem_cons.mp hn with rfl | hn
    · rcases hm with rfl | hm
      · exact List.mem_cons_self
      · exact List.mem_cons_of_mem _ (List.mem_append_left _ hm)
    · exact List.mem_cons_of_mem _ (List.mem_append_right _ (ih hn))

/-- What is on a path below some nodes is among all nodes below. -/
theorem mem_nodesAll_of_at? {m : Node} (h : n.at? (id :: path) = some m) :
    m ∈ nodesAll n.children := by
  induction path generalizing n id with
  | nil =>
    obtain ⟨c, hfind, hc⟩ := Option.bind_eq_some_iff.mp h
    obtain rfl : c = m := Option.some.inj hc
    exact mem_nodesAll_of_mem (List.mem_of_find?_eq_some hfind) (.inl rfl)
  | cons j path ih =>
    obtain ⟨c, hfind, hc⟩ := Option.bind_eq_some_iff.mp h
    exact mem_nodesAll_of_mem (List.mem_of_find?_eq_some hfind) (.inr (ih hc))

/-- A path ends with the id of its node. -/
theorem id_of_at? {m : Node} (hpath : path ≠ []) (h : n.at? path = some m) :
    path.getLast? = some m.id := by
  induction path generalizing n with
  | nil => exact absurd rfl hpath
  | cons id path ih =>
    obtain ⟨c, hfind, hc⟩ := Option.bind_eq_some_iff.mp h
    cases path with
    | nil =>
      obtain rfl : c = m := Option.some.inj hc
      have hid : c.id = id := by simpa using List.find?_some hfind
      rw [hid]
      rfl
    | cons j path => exact (List.getLast?_cons_cons ..).trans (ih (by simp) hc)

/-! ## Reports -/

theorem id_ranked (n : Node) : n.ranked.id = n.id := by
  obtain ⟨id, count, inclusive, exclusive, children⟩ := n
  rw [ranked]

theorem amount_ranked (n : Node) : n.ranked.amount = n.amount := by
  obtain ⟨id, count, inclusive, exclusive, children⟩ := n
  rw [ranked]
  rfl

/-- Ranking reorders the children, each ranked itself. -/
theorem children_ranked (n : Node) : n.ranked.children.Perm (n.children.map ranked) := by
  obtain ⟨id, count, inclusive, exclusive, children⟩ := n
  rw [ranked, rankedAll_eq_map]
  exact rankBy_perm _ _

/-- **Ranking moves no node to another path.** -/
theorem at?_ranked (path : List Int) {n : Node} (h : Distinct n.children) :
    n.ranked.at? path = (n.at? path).map ranked := by
  induction path generalizing n with
  | nil => rfl
  | cons id path ih =>
    have hids : (n.children.map ranked).map Node.id = n.children.map Node.id := by
      rw [List.map_map]
      exact List.map_congr_left fun c _ => id_ranked c
    have hfound : n.ranked.children.find? (·.id == id) =
        (n.children.find? (·.id == id)).map ranked := by
      rw [find?_perm n.children_ranked (hids ▸ h.1), List.find?_map]
      congr 1
      refine congrArg (List.find? · _) (funext fun c => ?_)
      rw [Function.comp_apply, id_ranked]
    rw [at?, at?, hfound]
    cases hfind : n.children.find? (·.id == id) with
    | none => rfl
    | some c => exact ih (h.of_mem (List.mem_of_find?_eq_some hfind))

variable {rate : TickRate} {nameOf : Int → String}

theorem shown_eq (n : Node) : n.shown rate nameOf =
    ⟨n.id, nameOf n.id, n.count, rate.toMillis n.inclusive, rate.toMillis n.exclusive,
      n.children.map (shown rate nameOf)⟩ := by
  have hall : ∀ ns : List Node, shownAll rate nameOf ns = ns.map (shown rate nameOf) := by
    intro ns
    induction ns with
    | nil => rfl
    | cons n ns ih => rw [shownAll, ih, List.map_cons]
  obtain ⟨id, count, inclusive, exclusive, children⟩ := n
  rw [shown, hall]

/-- **A report shows each node on its path.** -/
theorem at?_shown (path : List Int) (n : Node) :
    (n.shown rate nameOf).at? path = (n.at? path).map (shown rate nameOf) := by
  induction path generalizing n with
  | nil => rfl
  | cons id path ih =>
    have hfound : (n.shown rate nameOf).child? id =
        (n.children.find? (·.id == id)).map (shown rate nameOf) := by
      rw [CallNode.child?, shown_eq, List.find?_map]
      refine congrArg (Option.map _) (congrArg (List.find? · _) (funext fun c => ?_))
      rw [Function.comp_apply, shown_eq]
    rw [CallNode.at?, at?, hfound]
    cases n.children.find? (·.id == id) with
    | none => rfl
    | some c => exact ih c

end Node

/-! ## Scopes -/

namespace Scope

variable {x : Scope} {xs : List Scope} {id : Int} {path : List Int}

/-- No scope is on the empty path. -/
theorem atPath_nil (xs : List Scope) : atPath [] xs = [] := by
  have hnonempty : ∀ p ∈ placedAll xs, p.1 ≠ [] := by
    induction xs with
    | nil => simp [placedAll]
    | cons x xs ih =>
      intro p hp
      rw [placedAll, placed_eq] at hp
      rcases List.mem_append.mp hp with hp | hp
      · rcases List.mem_cons.mp hp with rfl | hp
        · simp
        · obtain ⟨q, -, rfl⟩ := List.mem_map.mp hp
          simp
      · exact ih p hp
  rw [atPath, List.filter_eq_nil_iff.mpr fun p hp => by simpa using hnonempty p hp, List.map_nil]

theorem atPath_cons (path : List Int) (x : Scope) (xs : List Scope) :
    atPath path (x :: xs) = atPath path [x] ++ atPath path xs := by
  simp only [atPath, placedAll, List.append_nil, List.filter_append, List.map_append]

/-- What a scope has on a path that begins with its id: itself if that is all,
and what is inside it on the rest. -/
theorem atPath_singleton (id : Int) (path : List Int) (x : Scope) :
    atPath (id :: path) [x] =
      if x.id = id then (if path = [] then [x] else []) ++ atPath path x.children else [] := by
  have hinside : ((placedAll x.children).map fun p => (x.id :: p.1, p.2)).filter
      (·.1 == id :: path) = if x.id = id then
        ((placedAll x.children).filter (·.1 == path)).map fun p => (x.id :: p.1, p.2) else [] := by
    rw [List.filter_map]
    by_cases hid : x.id = id
    · rw [if_pos hid]
      refine congrArg (List.map _) (List.filter_congr fun p _ => ?_)
      simp [hid]
    · rw [if_neg hid, List.map_eq_nil_iff, List.filter_eq_nil_iff]
      exact fun p _ => by simp [hid]
  rw [atPath, placedAll, placedAll, List.append_nil, placed_eq, List.filter_cons, hinside]
  by_cases hid : x.id = id
  · by_cases hpath : path = []
    · simp [hid, hpath, atPath, Function.comp_def]
    · simp [hid, hpath, atPath, Function.comp_def]
  · simp [hid]

/-- **The nodes of scopes count on each path what its scopes do.** -/
theorem words_amountIn_nodes (path : List Int) (xs : List Scope) :
    (Node.amountIn path (nodes xs)).words = ((atPath path xs).map amount).sum.words := by
  induction path generalizing xs with
  | nil =>
    rw [atPath_nil]
    rfl
  | cons id path ih =>
    have hone : ∀ x : Scope, (Node.amountIn (id :: path) [x.node]).words =
        ((atPath (id :: path) [x]).map amount).sum.words := by
      intro x
      rw [atPath_singleton, node_eq]
      simp only [Node.amountIn, List.map_cons, List.map_nil, List.sum_cons, List.sum_nil, add_zero]
      by_cases hid : x.id = id
      · rw [if_pos hid, if_pos hid]
        cases path with
        | nil =>
          rw [atPath_nil, if_pos rfl, List.append_nil, List.map_singleton, List.sum_singleton]
          rfl
        | cons j path =>
          rw [if_neg (by simp), List.nil_append, ← ih, Node.amountAt_cons,
            Node.words_amountIn_addAllTo, Node.amountIn_nil, map_zero, zero_add]
      · rw [if_neg hid, if_neg hid]
        rfl
    induction xs with
    | nil => rw [nodes, Node.amountIn_nil]; rfl
    | cons x xs ihxs =>
      rw [nodes, Node.amountIn_cons, map_add, hone, ihxs, atPath_cons (id :: path) x xs,
        List.map_append, List.sum_append, map_add]

mutual

theorem distinct_node : ∀ x : Scope, Node.Distinct x.node.children
  | ⟨id, start, finish, children⟩ => by
    rw [node]
    exact .addAllTo _ (distinct_nodes children) Node.distinct_nil

/-- The nodes of scopes have distinct siblings inside. -/
theorem distinct_nodes : ∀ xs : List Scope, ∀ n ∈ nodes xs, Node.Distinct n.children
  | [], n, hn => by
    rw [nodes] at hn
    exact absurd hn List.not_mem_nil
  | x :: xs, n, hn => by
    rw [nodes] at hn
    rcases List.mem_cons.mp hn with rfl | hn
    · exact distinct_node x
    · exact distinct_nodes xs n hn

end

/-- Words hold the ticks of a scope that lasts and is brief. -/
theorem fit_amount (hle : x.start ≤ x.finish) (hduration : x.duration ≤ TickRate.maxTicks)
    (hchildren : 0 ≤ durations x.children) : x.amount.Fit := by
  have hticks : x.duration = x.finish - x.start := rfl
  simp only [Amount.Fit, amount, exclusive, Ticks.Fit, TickRate.minTicks, TickRate.maxTicks] at *
  omega

mutual

theorem allCounted_node : ∀ x : Scope, Lasting [x] → Brief [x] → Node.AllCounted [x.node]
  | ⟨id, start, finish, children⟩, hlasting, hbrief => by
    obtain ⟨hle, hchildren, -⟩ := lasting_cons.mp hlasting
    obtain ⟨⟨hduration, -⟩, hchildren', -⟩ := brief_cons.mp hbrief
    have hfit := fit_amount hle hduration hchildren.durations_nonneg
    rw [node]
    exact Node.allCounted_cons.mpr ⟨⟨Nat.one_pos, hfit⟩,
      .addAllTo _ (allCounted_nodes children hchildren hchildren') Node.allCounted_nil,
      Node.allCounted_nil⟩

/-- Every node of scopes stands for some scope. -/
theorem allCounted_nodes : ∀ xs : List Scope, Lasting xs → Brief xs → Node.AllCounted (nodes xs)
  | [], _, _ => by
    rw [nodes]
    exact Node.allCounted_nil
  | x :: xs, hlasting, hbrief => by
    obtain ⟨hle, hchildren, hxs⟩ := lasting_cons.mp hlasting
    obtain ⟨hticks, hchildren', hxs'⟩ := brief_cons.mp hbrief
    have hfirst := allCounted_node x (lasting_cons.mpr ⟨hle, hchildren, lasting_nil⟩)
      (brief_cons.mpr ⟨hticks, hchildren', brief_nil⟩)
    rw [nodes]
    exact Node.allCounted_append.mpr ⟨hfirst, allCounted_nodes xs hxs hxs'⟩

end

end Scope

end EventTrace
