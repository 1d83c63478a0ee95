import EventTrace.Proofs.Profile.Thread
import Mathlib.Algebra.Group.Prod
import Mathlib.Data.BitVec
import Mathlib.Tactic.Abel
/-!
# Profile — what the nodes of an id amount to

Nodes are joined, handed down and taken over, and through all of it the nodes
of an id amount to the same: so many scopes, so many inclusive and exclusive
ticks, as far as words hold them (`Node.words_amountOf_addAllTo`). What a
thread holds, in open frames and in finished trees, is its forest; an event
adds to it the scope it closes, and nothing else (`ThreadState.step_forest`).
Nothing is asked of the order of the events.
-/

namespace EventTrace

/-- A number of scopes, with their inclusive and exclusive ticks. -/
abbrev Amount := Nat × Int × Int

/-- Two numbers of ticks are one word exactly if they wrap to the same. -/
theorem Ticks.wrap_eq_wrap_iff {m n : Int} : wrap m = wrap n ↔ (m : BitVec 64) = n := by
  -- a whole number is cast to the word of its remainder
  have hword (k : Int) : (k : BitVec 64).toInt = k.bmod (2 ^ 64) := BitVec.toInt_ofInt ..
  rw [← BitVec.toInt_inj, hword, hword, Int.bmod_def, Int.bmod_def]
  simp only [wrap, TickRate.minTicks]
  omega

@[simp] theorem Ticks.intCast_wrap (n : Int) : ((wrap n : Int) : BitVec 64) = n :=
  wrap_eq_wrap_iff.mp (fit_wrap n).wrap_eq

namespace Amount

/-- An amount with its ticks as words. -/
def words : Amount →+ Nat × BitVec 64 × BitVec 64 where
  toFun a := (a.1, a.2.1, a.2.2)
  map_zero' := by simp
  map_add' a b := by simp

/-- An amount with its ticks wrapped around where a word does not hold them. -/
def wrapped (a : Amount) : Amount := (a.1, Ticks.wrap a.2.1, Ticks.wrap a.2.2)

/-- Words hold the ticks of an amount. -/
def Fit (a : Amount) : Prop := Ticks.Fit a.2.1 ∧ Ticks.Fit a.2.2

variable {a b : Amount}

theorem words_apply (a : Amount) : a.words = (a.1, (a.2.1 : BitVec 64), (a.2.2 : BitVec 64)) := rfl

theorem fst_eq_of_words (h : a.words = b.words) : a.1 = b.1 := by
  have hfst : a.words.1 = b.words.1 := congrArg Prod.fst h
  exact hfst

theorem fit_wrapped (a : Amount) : a.wrapped.Fit := ⟨Ticks.fit_wrap _, Ticks.fit_wrap _⟩

/-- **What fits does not wrap.** -/
theorem Fit.wrapped_eq (h : a.Fit) : a.wrapped = a := by
  rw [wrapped, h.1.wrap_eq, h.2.wrap_eq]

/-- **Words tell an amount that fits.** -/
theorem Fit.eq_wrapped_iff (h : a.Fit) : a = b.wrapped ↔ a.words = b.words := by
  rw [← h.wrapped_eq]
  simp only [wrapped, words_apply, Prod.mk.injEq, Ticks.wrap_eq_wrap_iff, Ticks.intCast_wrap]

theorem Fit.eq_iff (h : a.Fit) (h' : b.Fit) : a = b ↔ a.words = b.words := by
  rw [← h.eq_wrapped_iff, h'.wrapped_eq]

@[simp] theorem words_wrapped (a : Amount) : a.wrapped.words = a.words :=
  (fit_wrapped a).eq_wrapped_iff.mp rfl

end Amount

/-- Sums of the same words have the same words. -/
theorem Amount.words_sum_congr {α : Type} {f g : α → Amount} {l : List α}
    (h : ∀ a ∈ l, (f a).words = (g a).words) : (l.map f).sum.words = (l.map g).sum.words := by
  rw [map_list_sum, map_list_sum, List.map_map, List.map_map]
  exact congrArg List.sum (List.map_congr_left h)

/-- A sum counts the scopes that its terms count. -/
theorem Amount.fst_sum {α : Type} (f : α → Amount) (l : List α) :
    (l.map f).sum.1 = (l.map fun a => (f a).1).sum := by
  rw [← AddMonoidHom.coe_fst, map_list_sum, List.map_map]
  rfl

/-- A sum counts some scope exactly if one of its terms does. -/
theorem Amount.fst_sum_pos {α : Type} {f : α → Amount} {l : List α} :
    0 < (l.map f).sum.1 ↔ ∃ a ∈ l, 0 < (f a).1 := by
  rw [Amount.fst_sum]
  induction l with
  | nil => simp
  | cons a rest ih =>
    rw [List.map_cons, List.sum_cons, List.exists_mem_cons_iff, ← ih]
    omega

namespace Node

variable {n : Node} {ns siblings : List Node} {id : Int}

/-- What a node counts. -/
def amount (n : Node) : Amount := (n.count, n.inclusive, n.exclusive)

/-- What all nodes of an id amount to, at every level. -/
def amountOf (id : Int) (ns : List Node) : Amount :=
  (((nodesAll ns).filter (·.id == id)).map amount).sum

/-- A node stands for some scope, and words hold its ticks. -/
structure Counted (n : Node) : Prop where
  pos : 0 < n.count
  fit : n.amount.Fit

/-- Every node stands for some scope, at every level. -/
def AllCounted (ns : List Node) : Prop := ∀ n ∈ nodesAll ns, n.Counted

@[simp] theorem amountOf_nil (id : Int) : amountOf id [] = 0 := by simp [amountOf]

theorem amountOf_cons (id : Int) (n : Node) (ns : List Node) :
    amountOf id (n :: ns) =
      (if n.id = id then n.amount else 0) + amountOf id n.children + amountOf id ns := by
  by_cases hid : n.id = id
  · simp [amountOf, hid, add_assoc]
  · simp [amountOf, hid]

theorem amountOf_append (id : Int) (ms ns : List Node) :
    amountOf id (ms ++ ns) = amountOf id ms + amountOf id ns := by
  induction ms with
  | nil => simp
  | cons m ms ih =>
    rw [List.cons_append, amountOf_cons, amountOf_cons, ih]
    abel

theorem nodesAll_perm {ms ns : List Node} (h : ms.Perm ns) : (nodesAll ms).Perm (nodesAll ns) := by
  induction h with
  | nil => rfl
  | cons n _ ih =>
    rw [nodesAll, nodesAll]
    exact ih.append_left _
  | swap m n rest =>
    simp only [nodesAll]
    exact List.perm_append_comm_assoc ..
  | trans _ _ ih ih' => exact ih.trans ih'

/-- The order of siblings does not matter. -/
theorem amountOf_perm {ms ns : List Node} (h : ms.Perm ns) : amountOf id ms = amountOf id ns :=
  (((nodesAll_perm h).filter _).map _).sum_eq

theorem AllCounted.perm {ms ns : List Node} (h : AllCounted ms) (hperm : ms.Perm ns) :
    AllCounted ns := fun n hn => h n ((nodesAll_perm hperm).mem_iff.mpr hn)

theorem allCounted_nil : AllCounted [] := by simp [AllCounted]

theorem allCounted_cons :
    AllCounted (n :: ns) ↔ n.Counted ∧ AllCounted n.children ∧ AllCounted ns := by
  simp only [AllCounted, nodesAll_cons, List.mem_cons, List.mem_append, or_imp, forall_and,
    forall_eq]

theorem allCounted_append {ms ns : List Node} :
    AllCounted (ms ++ ns) ↔ AllCounted ms ∧ AllCounted ns := by
  induction ms with
  | nil => simp [allCounted_nil]
  | cons m ms ih =>
    rw [List.cons_append, allCounted_cons, allCounted_cons, ih, and_assoc, and_assoc]

/-- **A node of an id is there exactly if its id amounts to some scope**,
where every node stands for one. -/
theorem exists_node_iff (h : AllCounted ns) :
    (∃ n ∈ nodesAll ns, n.id = id) ↔ 0 < (amountOf id ns).1 := by
  rw [amountOf, Amount.fst_sum_pos]
  constructor
  · rintro ⟨n, hn, rfl⟩
    exact ⟨n, List.mem_filter.mpr ⟨hn, beq_self_eq_true _⟩, (h n hn).pos⟩
  · rintro ⟨n, hn, -⟩
    obtain ⟨hn, hid⟩ := List.mem_filter.mp hn
    exact ⟨n, hn, beq_iff_eq.mp hid⟩

/-! ## Joining -/

mutual

/-- A node that joins siblings brings what it amounts to. -/
theorem words_amountOf_addTo (id : Int) : ∀ (n : Node) (siblings : List Node),
    (amountOf id (addTo n siblings)).words = (amountOf id siblings).words + (amountOf id [n]).words
  | ⟨i, count, inclusive, exclusive, children⟩, siblings => by
    rw [addTo]
    induction siblings with
    | nil => simp [place]
    | cons s rest ih =>
      rw [place]
      split
      · next hs =>
        -- the two nodes are of one id, so what is joined is counted where both were
        have hs : s.id = i := hs
        subst hs
        have hbelow := words_amountOf_addAllTo id children s.children
        simp only [amountOf_cons, amountOf_nil, map_add, map_zero, hbelow, amount]
        by_cases hid : s.id = id
        · simp only [if_pos hid, Amount.words_apply, Ticks.intCast_wrap, Int.cast_add,
            ← Prod.mk_add_mk]
          abel
        · simp only [if_neg hid]
          abel
      · simp only [amountOf_cons id s, map_add, ih]
        abel

/-- **Nodes that join siblings bring what they amount to.** -/
theorem words_amountOf_addAllTo (id : Int) : ∀ (ns siblings : List Node),
    (amountOf id (addAllTo ns siblings)).words =
      (amountOf id siblings).words + (amountOf id ns).words
  | [], siblings => by simp [addAllTo]
  | n :: ns, siblings => by
    have hrest : amountOf id (n :: ns) = amountOf id [n] + amountOf id ns :=
      amountOf_append id [n] ns
    rw [addAllTo, words_amountOf_addAllTo id ns, words_amountOf_addTo id n, hrest, map_add,
      add_assoc]

end

mutual

theorem AllCounted.addTo : ∀ (n : Node) {siblings : List Node}, n.Counted →
    AllCounted n.children → AllCounted siblings → AllCounted (Node.addTo n siblings)
  | ⟨i, count, inclusive, exclusive, children⟩, siblings, hn, hchildren, hsiblings => by
    rw [Node.addTo]
    induction siblings with
    | nil => exact allCounted_cons.mpr ⟨hn, hchildren, allCounted_nil⟩
    | cons s rest ih =>
      obtain ⟨hs, hbelow, hrest⟩ := allCounted_cons.mp hsiblings
      rw [place]
      split
      · exact allCounted_cons.mpr
          ⟨⟨Nat.add_pos_left hs.pos _, Ticks.fit_wrap _, Ticks.fit_wrap _⟩,
            AllCounted.addAllTo children hchildren hbelow, hrest⟩
      · exact allCounted_cons.mpr ⟨hs, hbelow, ih hrest⟩

/-- Joining leaves no node without a scope. -/
theorem AllCounted.addAllTo : ∀ (ns : List Node) {siblings : List Node}, AllCounted ns →
    AllCounted siblings → AllCounted (Node.addAllTo ns siblings)
  | [], siblings, _, hsiblings => by
    rw [Node.addAllTo]
    exact hsiblings
  | n :: ns, siblings, hns, hsiblings => by
    obtain ⟨hn, hchildren, hrest⟩ := allCounted_cons.mp hns
    rw [Node.addAllTo]
    exact AllCounted.addAllTo ns hrest (AllCounted.addTo n hn hchildren hsiblings)

end

mutual

/-- Ranking siblings changes no amount. -/
theorem amountOf_ranked (id : Int) : ∀ n : Node, amountOf id [n.ranked] = amountOf id [n]
  | ⟨i, count, inclusive, exclusive, children⟩ => by
    have hbelow := amountOf_rankedAll id children
    rw [Node.ranked, amountOf_cons, amountOf_cons]
    simp only [amountOf_perm (rankBy_perm _ _), hbelow, amount]

/-- Nor does it at any level. -/
theorem amountOf_rankedAll (id : Int) : ∀ ns : List Node,
    amountOf id (rankedAll ns) = amountOf id ns
  | [] => by rw [rankedAll]
  | n :: ns => by
    have hranked : amountOf id (n.ranked :: rankedAll ns) =
        amountOf id [n.ranked] + amountOf id (rankedAll ns) := amountOf_append id [n.ranked] _
    have hplain : amountOf id (n :: ns) = amountOf id [n] + amountOf id ns :=
      amountOf_append id [n] ns
    rw [rankedAll, hranked, hplain, amountOf_ranked id n, amountOf_rankedAll id ns]

end

mutual

theorem AllCounted.ranked : ∀ n : Node, AllCounted [n] → AllCounted [n.ranked]
  | ⟨i, count, inclusive, exclusive, children⟩, h => by
    obtain ⟨hn, hchildren, -⟩ := allCounted_cons.mp h
    rw [Node.ranked]
    exact allCounted_cons.mpr ⟨⟨hn.pos, hn.fit⟩,
      (AllCounted.rankedAll children hchildren).perm (rankBy_perm _ _).symm, allCounted_nil⟩

/-- Nor does it leave a node without a scope. -/
theorem AllCounted.rankedAll : ∀ ns : List Node, AllCounted ns → AllCounted (rankedAll ns)
  | [], h => by
    rw [Node.rankedAll]
    exact h
  | n :: ns, h => by
    obtain ⟨hn, hchildren, hrest⟩ := allCounted_cons.mp h
    have hfirst := AllCounted.ranked n (allCounted_cons.mpr ⟨hn, hchildren, allCounted_nil⟩)
    rw [Node.rankedAll]
    exact allCounted_append.mpr ⟨hfirst, AllCounted.rankedAll ns hrest⟩

end

end Node

/-! ## A thread's forest -/

/-- What a closed scope counts. -/
def ClosedScope.amount (scope : ClosedScope) : Amount := (1, scope.inclusive, scope.exclusive)

/-- Words hold the ticks of a closed scope, and none are less than zero. -/
structure ClosedScope.Measured (scope : ClosedScope) : Prop where
  fit : scope.amount.Fit
  inclusive : 0 ≤ scope.inclusive
  exclusive : 0 ≤ scope.exclusive

/-- What a closed scope, if there is one, counts for an id. -/
def ClosedScope.amountOf (id : Int) (closed : Option ClosedScope) : Amount :=
  match closed with
  | none => 0
  | some scope => if scope.id = id then scope.amount else 0

namespace ThreadState

variable {s : ThreadState} {p : Pending} {e : Event} {m : Match Pending} {id : Int}

/-- The nodes that frames hold. -/
def pendingNodes (frames : List (Frame Pending)) : List Node :=
  frames.flatMap fun f => f.data.children

/-- Every tree a thread holds: those of its open frames and those that are
finished. -/
def forest (s : ThreadState) : List Node := pendingNodes s.frames ++ s.roots

/-- Taking over what frames hold brings what it amounts to. -/
theorem adopted_children (p : Pending) (lost : List (Frame Pending)) :
    (∀ id, (Node.amountOf id (lost.foldl (fun p f => p.adopt f.data) p).children).words =
      (Node.amountOf id p.children).words + (Node.amountOf id (pendingNodes lost)).words) ∧
    (Node.AllCounted p.children → Node.AllCounted (pendingNodes lost) →
      Node.AllCounted (lost.foldl (fun p f => p.adopt f.data) p).children) := by
  induction lost generalizing p with
  | nil => exact ⟨fun id => by simp [pendingNodes], fun hp _ => hp⟩
  | cons f rest ih =>
    obtain ⟨hamount, hcounted⟩ := ih (p.adopt f.data)
    have hnodes : pendingNodes (f :: rest) = f.data.children ++ pendingNodes rest := rfl
    refine ⟨fun id => ?_, fun hp hlost => ?_⟩
    · rw [List.foldl_cons, hamount, hnodes, Node.amountOf_append, map_add, ← add_assoc]
      exact congrArg (· + _) (Node.words_amountOf_addAllTo id f.data.children p.children)
    · rw [hnodes, Node.allCounted_append] at hlost
      exact hcounted (.addAllTo _ hlost.1 hp) hlost.2

/-- What is handed down is added to the forest. -/
theorem handDown_forest (s : ThreadState) (p : Pending) :
    (∀ id, (Node.amountOf id (s.handDown p).forest).words =
      (Node.amountOf id s.forest).words + (Node.amountOf id p.children).words) ∧
    (Node.AllCounted s.forest → Node.AllCounted p.children →
      Node.AllCounted (s.handDown p).forest) := by
  obtain ⟨frames, roots⟩ := s
  cases frames with
  | nil =>
    refine ⟨fun id => Node.words_amountOf_addAllTo id p.children roots, fun hs hp => ?_⟩
    exact Node.AllCounted.addAllTo _ hp hs
  | cons top below =>
    have hbefore : forest ⟨top :: below, roots⟩ =
        top.data.children ++ (pendingNodes below ++ roots) := by
      simp [forest, pendingNodes]
    have hafter : (handDown ⟨top :: below, roots⟩ p).forest =
        Node.addAllTo p.children top.data.children ++ (pendingNodes below ++ roots) := by
      simp [handDown, forest, pendingNodes, Pending.adopt]
    refine ⟨fun id => ?_, fun hs hp => ?_⟩
    · rw [hbefore, hafter, Node.amountOf_append id (Node.addAllTo _ _),
        Node.amountOf_append id top.data.children, map_add, map_add, Node.words_amountOf_addAllTo]
      abel
    · rw [hbefore, Node.allCounted_append] at hs
      rw [hafter, Node.allCounted_append]
      exact ⟨.addAllTo _ hp hs.1, hs.2⟩

/-- **A match adds the scope it closes** and loses nothing of what its frames
hold, valid or not. -/
theorem finish_forest
    (hframes : s.frames = m.abandoned.reverse ++ m.frame :: m.below) :
    (∀ id, (Node.amountOf id (s.finish e m).1.forest).words =
      (Node.amountOf id s.forest).words + (ClosedScope.amountOf id (s.finish e m).2.closed).words) ∧
    (Node.AllCounted s.forest → Node.AllCounted (s.finish e m).1.forest) := by
  obtain ⟨hamount, hcounted⟩ := adopted_children m.frame.data m.abandoned
  -- what the frames held is what the match takes over and what is left below it
  have hsplit : s.forest.Perm (m.frame.data.children ++ pendingNodes m.abandoned ++
      ({ s with frames := m.below } : ThreadState).forest) := by
    have hlost : (pendingNodes m.abandoned.reverse).Perm (pendingNodes m.abandoned) :=
      (List.reverse_perm m.abandoned).flatMap_right _
    simp only [forest, hframes, pendingNodes, List.flatMap_append, List.flatMap_cons,
      List.append_assoc]
    exact (hlost.append_right _).trans (List.perm_append_comm_assoc ..)
  have hbefore : ∀ id, (Node.amountOf id s.forest).words =
      (Node.amountOf id
          (m.abandoned.foldl (fun p lost => p.adopt lost.data) m.frame.data).children).words +
        (Node.amountOf id ({ s with frames := m.below } : ThreadState).forest).words := fun id => by
    rw [Node.amountOf_perm hsplit, Node.amountOf_append, Node.amountOf_append, map_add, map_add,
      hamount]
  have hkept : Node.AllCounted s.forest →
      Node.AllCounted
          (m.abandoned.foldl (fun p lost => p.adopt lost.data) m.frame.data).children ∧
        Node.AllCounted ({ s with frames := m.below } : ThreadState).forest := by
    intro hs
    have hs : Node.AllCounted (m.frame.data.children ++ pendingNodes m.abandoned ++
        ({ s with frames := m.below } : ThreadState).forest) := hs.perm hsplit
    rw [Node.allCounted_append, Node.allCounted_append] at hs
    exact ⟨hcounted hs.1.1 hs.1.2, hs.2⟩
  unfold ThreadState.finish
  generalize m.abandoned.foldl (fun p lost => p.adopt lost.data) m.frame.data = taken at *
  dsimp only
  split
  · obtain ⟨hdown, hdownCounted⟩ :=
      handDown_forest ({ s with frames := m.below } : ThreadState) taken
    refine ⟨fun id => ?_, fun hs => hdownCounted (hkept hs).2 (hkept hs).1⟩
    rw [hdown, hbefore, ClosedScope.amountOf, map_zero, add_zero, add_comm]
  · refine ⟨fun id => ?_, fun hs => ?_⟩
    · rw [(handDown_forest _ _).1, hbefore]
      simp only [Pending.ofNode, Node.amountOf_cons, Node.amountOf_nil, ClosedScope.amountOf,
        ClosedScope.amount, Node.amount, map_add, map_zero]
      abel
    · refine (handDown_forest _ _).2 (hkept hs).2 ?_
      exact Node.allCounted_cons.mpr ⟨⟨Nat.one_pos, Ticks.fit_wrap _, (Ticks.fit_wrap _).max_zero⟩,
        (hkept hs).1, Node.allCounted_nil⟩

/-- **An event adds to the forest the scope it closes**, and nothing else. -/
theorem step_forest (strict : Bool) (s : ThreadState) (e : Event) :
    (∀ id, (Node.amountOf id (s.step strict e).1.forest).words =
      (Node.amountOf id s.forest).words +
        (ClosedScope.amountOf id (s.step strict e).2.closed).words) ∧
    (Node.AllCounted s.forest → Node.AllCounted (s.step strict e).1.forest) := by
  unfold ThreadState.step
  split
  · exact ⟨fun id => (add_zero _).symm, id⟩
  · unfold ThreadState.close
    dsimp only
    cases hmatch : (Nesting.close strict e.id s.frames).matched with
    | none => exact ⟨fun id => (add_zero _).symm, id⟩
    | some m => exact finish_forest (Nesting.eq_of_close hmatch)
  · exact ⟨fun id => (add_zero _).symm, id⟩

/-- A closed scope is of the thread of its end, and measured in words, to no
less than no time. -/
theorem measured_of_closed {strict : Bool} {scope : ClosedScope}
    (h : (s.step strict e).2.closed = some scope) :
    scope.thread = e.thread ∧ scope.Measured := by
  unfold ThreadState.step at h
  split at h
  · exact absurd h (by simp)
  · unfold ThreadState.close at h
    dsimp only at h
    split at h
    · exact absurd h (by simp)
    · unfold ThreadState.finish at h
      dsimp only at h
      split at h
      · exact absurd h (by simp)
      · next hticks =>
        rw [← Option.some.inj h]
        exact ⟨rfl, ⟨Ticks.fit_wrap _, (Ticks.fit_wrap _).max_zero⟩, Int.not_lt.mp hticks,
          Int.le_max_left ..⟩
  · exact absurd h (by simp)

/-- **The trees at the end of the stream are the forest**, joined. -/
theorem trees_forest (s : ThreadState) :
    (∀ id, (Node.amountOf id s.trees).words = (Node.amountOf id s.forest).words) ∧
    (Node.AllCounted s.forest → Node.AllCounted s.trees) := by
  have hfold : ∀ (frames : List (Frame Pending)) (roots : List Node),
      (∀ id, (Node.amountOf id
          (frames.foldl (fun roots f => Node.addAllTo f.data.children roots) roots)).words =
        (Node.amountOf id roots).words + (Node.amountOf id (pendingNodes frames)).words) ∧
      (Node.AllCounted roots → Node.AllCounted (pendingNodes frames) → Node.AllCounted
        (frames.foldl (fun roots f => Node.addAllTo f.data.children roots) roots)) := by
    intro frames
    induction frames with
    | nil => exact fun roots => ⟨fun id => by simp [pendingNodes], fun hroots _ => hroots⟩
    | cons f rest ih =>
      intro roots
      obtain ⟨hamount, hcounted⟩ := ih (Node.addAllTo f.data.children roots)
      have hnodes : pendingNodes (f :: rest) = f.data.children ++ pendingNodes rest := rfl
      refine ⟨fun id => ?_, fun hroots hframes => ?_⟩
      · rw [List.foldl_cons, hamount, Node.words_amountOf_addAllTo, hnodes, Node.amountOf_append,
          map_add, add_assoc]
      · rw [hnodes, Node.allCounted_append] at hframes
        exact hcounted (.addAllTo _ hframes.1 hroots) hframes.2
  have hreverse : (pendingNodes s.frames.reverse).Perm (pendingNodes s.frames) :=
    (List.reverse_perm s.frames).flatMap_right _
  obtain ⟨hamount, hcounted⟩ := hfold s.frames.reverse s.roots
  refine ⟨fun id => ?_, fun hs => ?_⟩
  · rw [trees, hamount, Node.amountOf_perm hreverse, forest, Node.amountOf_append, map_add,
      add_comm]
  · rw [forest, Node.allCounted_append] at hs
    exact hcounted hs.2 (hs.1.perm hreverse.symm)

end ThreadState

end EventTrace
