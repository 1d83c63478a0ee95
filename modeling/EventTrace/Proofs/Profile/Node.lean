import EventTrace.Profile.Node
import Mathlib.Algebra.Order.BigOperators.Group.List
import Mathlib.Algebra.Order.Ring.Int
import Mathlib.Tactic.Common
/-!
# Profile — nodes that cover their children

A node is settled if its exclusive ticks are what its inclusive ticks leave
over its children's, and that is not negative. The exclusive ticks of settled
trees add up to the inclusive ticks of their tops (`sum_exclusive_nodesAll`),
and adding settled nodes to settled siblings leaves every node settled, at
every level, as long as a word holds the ticks of all (`settled_addAllTo`).
-/

namespace EventTrace

namespace Node

variable {n : Node} {ns siblings : List Node}

/-! ## The nodes of a tree -/

mutual

/-- A node and all nodes below it. -/
def nodes : Node → List Node
  | ⟨id, count, inclusive, exclusive, children⟩ =>
    ⟨id, count, inclusive, exclusive, children⟩ :: nodesAll children

/-- Some nodes and all nodes below them. -/
def nodesAll : List Node → List Node
  | [] => []
  | node :: rest => nodes node ++ nodesAll rest

end

theorem nodes_eq (n : Node) : n.nodes = n :: nodesAll n.children := by
  cases n
  rw [nodes]

@[simp] theorem nodesAll_nil : nodesAll [] = [] := by rw [nodesAll]

@[simp] theorem nodesAll_cons (n : Node) (ns : List Node) :
    nodesAll (n :: ns) = n :: (nodesAll n.children ++ nodesAll ns) := by
  rw [nodesAll, nodes_eq, List.cons_append]

/-! ## Settled nodes -/

/-- The exclusive ticks are what the children leave of the inclusive ones. -/
structure Settled (n : Node) : Prop where
  exclusive : n.exclusive = n.inclusive - inclusiveSum n.children
  nonneg : 0 ≤ n.exclusive

/-- Every node is settled, at every level. -/
def AllSettled (ns : List Node) : Prop := ∀ n ∈ nodesAll ns, Settled n

@[simp] theorem inclusiveSum_nil : inclusiveSum [] = 0 := rfl

@[simp] theorem inclusiveSum_cons (n : Node) (ns : List Node) :
    inclusiveSum (n :: ns) = n.inclusive + inclusiveSum ns := rfl

theorem allSettled_nil : AllSettled [] := fun n hn => by
  rw [nodesAll_nil] at hn
  exact absurd hn List.not_mem_nil

theorem allSettled_cons :
    AllSettled (n :: ns) ↔ Settled n ∧ AllSettled n.children ∧ AllSettled ns := by
  simp only [AllSettled, nodesAll_cons, List.mem_cons, List.mem_append, or_imp, forall_and,
    forall_eq]

/-! ## Sums -/

mutual

/-- The exclusive ticks of a settled tree add up to its inclusive ticks. -/
theorem sum_exclusive_nodes : ∀ n : Node, Settled n → AllSettled n.children →
    (n.nodes.map exclusive).sum = n.inclusive
  | ⟨id, count, inclusive, exclusive, children⟩, hn, hchildren => by
    have hbelow := sum_exclusive_nodesAll children hchildren
    have hexclusive := hn.exclusive
    dsimp only at hexclusive
    rw [nodes_eq, List.map_cons, List.sum_cons]
    show exclusive + _ = inclusive
    rw [hbelow]
    omega

/-- **The exclusive ticks of settled trees add up to their inclusive
ticks.** -/
theorem sum_exclusive_nodesAll : ∀ ns : List Node, AllSettled ns →
    ((nodesAll ns).map exclusive).sum = inclusiveSum ns
  | [], _ => by simp
  | n :: ns, hns => by
    obtain ⟨hn, hchildren, hrest⟩ := allSettled_cons.mp hns
    rw [nodesAll, List.map_append, List.sum_append, sum_exclusive_nodes n hn hchildren,
      sum_exclusive_nodesAll ns hrest, inclusiveSum_cons]

end

/-- Settled trees take no less than no time. -/
theorem AllSettled.inclusiveSum_nonneg (h : AllSettled ns) : 0 ≤ inclusiveSum ns := by
  rw [← sum_exclusive_nodesAll ns h]
  refine List.sum_nonneg ?_
  intro ticks hticks
  obtain ⟨n, hn, rfl⟩ := List.mem_map.mp hticks
  exact (h n hn).nonneg

theorem Settled.inclusive_nonneg (h : n.Settled) (hchildren : AllSettled n.children) :
    0 ≤ n.inclusive := by
  have := h.exclusive
  have := h.nonneg
  have := hchildren.inclusiveSum_nonneg
  omega

/-! ## Adding nodes -/

mutual

/-- A settled tree joins settled siblings, if a word holds the ticks of all. -/
theorem settled_addTo : ∀ (n : Node) {siblings : List Node}, Settled n → AllSettled n.children →
    AllSettled siblings → inclusiveSum siblings + n.inclusive ≤ TickRate.maxTicks →
    AllSettled (addTo n siblings) ∧
      inclusiveSum (addTo n siblings) = inclusiveSum siblings + n.inclusive
  | ⟨id, count, inclusive, exclusive, children⟩, siblings, hn, hchildren, hsiblings, hfit => by
    have hexclusive := hn.exclusive
    have hnonneg := hn.nonneg
    have hbelow := hchildren.inclusiveSum_nonneg
    dsimp only at hexclusive hnonneg hbelow hfit
    -- a node that joins one of its name adds to it all over, and so do their children
    have hjoin : ∀ s : Node, Settled s → AllSettled s.children →
        s.inclusive + inclusive ≤ TickRate.maxTicks →
        Ticks.wrap (s.inclusive + inclusive) = s.inclusive + inclusive ∧
        Settled ⟨s.id, s.count + count, Ticks.wrap (s.inclusive + inclusive),
          Ticks.wrap (s.exclusive + exclusive), addAllTo children s.children⟩ ∧
        AllSettled (addAllTo children s.children) := by
      intro s hs hall hle
      have hsexclusive := hs.exclusive
      have hsnonneg := hs.nonneg
      have hsbelow := hall.inclusiveSum_nonneg
      obtain ⟨hsettled, hsum⟩ := settled_addAllTo children hchildren hall (by omega)
      have hinclusive := Ticks.wrap_eq_of_nonneg (n := s.inclusive + inclusive) (by omega) hle
      have hjoined := Ticks.wrap_eq_of_nonneg (n := s.exclusive + exclusive) (by omega) (by omega)
      rw [hinclusive, hjoined]
      refine ⟨rfl, ⟨?_, Int.add_nonneg hsnonneg hnonneg⟩, hsettled⟩
      show s.exclusive + exclusive =
        s.inclusive + inclusive - inclusiveSum (addAllTo children s.children)
      omega
    rw [addTo]
    induction siblings with
    | nil =>
      exact ⟨allSettled_cons.mpr ⟨hn, hchildren, allSettled_nil⟩, Int.add_comm inclusive 0⟩
    | cons s rest ih =>
      obtain ⟨hs, hsbelow, hrest⟩ := allSettled_cons.mp hsiblings
      have hsnonneg := hs.inclusive_nonneg hsbelow
      have hrestnonneg := hrest.inclusiveSum_nonneg
      rw [inclusiveSum_cons] at hfit ⊢
      rw [place]
      split
      · obtain ⟨hinclusive, hjoined, hchildren'⟩ := hjoin s hs hsbelow (by omega)
        refine ⟨allSettled_cons.mpr ⟨hjoined, hchildren', hrest⟩, ?_⟩
        show Ticks.wrap (s.inclusive + inclusive) + inclusiveSum rest =
          s.inclusive + inclusiveSum rest + inclusive
        omega
      · obtain ⟨hsettled, hsum⟩ := ih hrest (by omega)
        refine ⟨allSettled_cons.mpr ⟨hs, hsbelow, hsettled⟩, ?_⟩
        rw [inclusiveSum_cons, hsum]
        omega

/-- **Settled trees join settled siblings**, if a word holds the ticks of all,
and take as long as before. -/
theorem settled_addAllTo : ∀ (ns : List Node) {siblings : List Node}, AllSettled ns →
    AllSettled siblings → inclusiveSum siblings + inclusiveSum ns ≤ TickRate.maxTicks →
    AllSettled (addAllTo ns siblings) ∧
      inclusiveSum (addAllTo ns siblings) = inclusiveSum siblings + inclusiveSum ns
  | [], siblings, _, hsiblings, _ => by
    rw [addAllTo]
    exact ⟨hsiblings, (Int.add_zero _).symm⟩
  | n :: ns, siblings, hns, hsiblings, hfit => by
    obtain ⟨hn, hchildren, hrest⟩ := allSettled_cons.mp hns
    have hnonneg := hrest.inclusiveSum_nonneg
    rw [inclusiveSum_cons] at hfit ⊢
    obtain ⟨hjoined, hfirst⟩ := settled_addTo n hn hchildren hsiblings (by omega)
    obtain ⟨hsettled, hsum⟩ := settled_addAllTo ns hrest hjoined (by omega)
    rw [addAllTo]
    exact ⟨hsettled, by omega⟩

end

/-- **So do many lists of them**, one after the other. -/
theorem settled_foldl_addAllTo {α : Type} (children : α → List Node) :
    ∀ (as : List α) {roots : List Node}, (∀ a ∈ as, AllSettled (children a)) → AllSettled roots →
      inclusiveSum roots + (as.map fun a => inclusiveSum (children a)).sum ≤ TickRate.maxTicks →
      AllSettled (as.foldl (fun roots a => addAllTo (children a) roots) roots) ∧
        inclusiveSum (as.foldl (fun roots a => addAllTo (children a) roots) roots) =
          inclusiveSum roots + (as.map fun a => inclusiveSum (children a)).sum
  | [], roots, _, hroots, _ => ⟨hroots, (Int.add_zero _).symm⟩
  | a :: as, roots, has, hroots, hfit => by
    obtain ⟨ha, hrest⟩ := List.forall_mem_cons.mp has
    have hnonneg : 0 ≤ (as.map fun a => inclusiveSum (children a)).sum := by
      refine List.sum_nonneg fun ticks hticks => ?_
      obtain ⟨b, hb, rfl⟩ := List.mem_map.mp hticks
      exact (hrest b hb).inclusiveSum_nonneg
    rw [List.map_cons, List.sum_cons] at hfit ⊢
    obtain ⟨hjoined, hfirst⟩ := settled_addAllTo (children a) ha hroots (by omega)
    obtain ⟨hsettled, hsum⟩ := settled_foldl_addAllTo children as hrest hjoined (by omega)
    exact ⟨hsettled, hsum.trans (by omega)⟩

end Node

end EventTrace
