import EventTrace.Flows
import EventTrace.Proofs.Recording.Merge
import EventTrace.Proofs.Table
/-!
# Flows — what chains are made of

The chains of a recording are those that the links of its flows make: a flow
has a chain if its links make one (`Recording.mem_flowChains_iff`), and the
links of the chain are some of the flow's, in one piece
(`FlowChain.links_infix`).
-/

namespace EventTrace

namespace FlowChain

/-- **A chain is a piece of the links** it is made of. -/
theorem links_infix {links : List Event} {c : FlowChain} (h : ofLinks? links = some c) :
    c.links <:+: links := by
  unfold ofLinks? at h
  split at h
  · exact absurd h (by simp)
  · next first later hfirst =>
    split at h
    · exact absurd h (by simp)
    · next last middle hlast =>
      obtain rfl := Option.some.inj h
      have hsuffix : first :: later <:+ links := hfirst ▸ List.dropWhile_suffix _
      have hprefix : middle.reverse ++ [last] <+: later := by
        have hend : last :: middle <:+ later.reverse := hlast ▸ List.dropWhile_suffix _
        rwa [← List.reverse_prefix, List.reverse_cons, List.reverse_reverse] at hend
      exact (List.prefix_cons_inj first |>.mpr hprefix).isInfix.trans hsuffix.isInfix

end FlowChain

namespace Recording

variable {r : Recording} {row : Int × FlowChain} {e : Event}

/-- The links of a flow, in time order. -/
def linksOf (r : Recording) (flow : Int) : List Event :=
  r.sortedEvents.filter fun e => e.kind.isFlow && e.flow == flow

theorem mem_linksOf {flow : Int} :
    e ∈ r.linksOf flow ↔ e ∈ r.events ∧ e.kind.isFlow = true ∧ e.flow = flow := by
  rw [linksOf, List.mem_filter, r.sortedEvents_perm.mem_iff, Bool.and_eq_true, beq_iff_eq]

theorem get?_flowLinks (r : Recording) (flow : Int) : r.flowLinks.get? flow =
    if flow = noFlow ∨ r.linksOf flow = [] then none else some (r.linksOf flow).toArray := by
  have hlinks : ((r.sortedEvents.filter fun e => e.flow != noFlow && e.kind.isFlow).filter
      fun e => e.flow == flow) = if flow = noFlow then [] else r.linksOf flow := by
    rw [List.filter_filter]
    split
    · next hnone =>
      refine List.filter_eq_nil_iff.mpr fun e _ => ?_
      by_cases he : e.flow = noFlow <;> simp [he, hnone]
    · next hflow =>
      refine List.filter_congr fun e _ => ?_
      by_cases he : e.flow = flow
      · simp [he, hflow]
      · rw [beq_false_of_ne he, Bool.false_and, Bool.and_false]
  rw [flowLinks, Table.get?_filed, hlinks]
  by_cases hflow : flow = noFlow
  · simp [hflow]
  · simp [hflow]

/-- **The chains are those that the links of a flow make.** -/
theorem mem_flowChains_iff : row ∈ r.flowChains ↔
    row.1 ≠ noFlow ∧ FlowChain.ofLinks? (r.linksOf row.1) = some row.2 := by
  obtain ⟨flow, c⟩ := row
  rw [flowChains, (rankBy_perm _ _).mem_iff, List.mem_filterMap]
  constructor
  · rintro ⟨⟨flow', links⟩, hmem, hchain⟩
    obtain ⟨c', hc', heq⟩ := Option.map_eq_some_iff.mp hchain
    obtain ⟨rfl, rfl⟩ := Prod.mk.inj heq
    have hget := Table.get?_of_mem hmem
    rw [get?_flowLinks] at hget
    split at hget
    · exact absurd hget (by simp)
    · next hsome =>
      rw [← Option.some.inj hget] at hc'
      exact ⟨fun hnone => hsome (.inl hnone), hc'⟩
  · rintro ⟨hflow, hc⟩
    have hlinks : r.linksOf flow ≠ [] := by
      intro hnone
      rw [hnone] at hc
      exact absurd hc (by simp [FlowChain.ofLinks?])
    refine ⟨(flow, (r.linksOf flow).toArray), Table.mem_of_get? ?_, ?_⟩
    · rw [get?_flowLinks, if_neg (not_or.mpr ⟨hflow, hlinks⟩)]
    · rw [List.toList_toArray, hc]
      rfl

/-- The links of a chain are events of its flow. -/
theorem of_mem_links (hrow : row ∈ r.flowChains) (he : e ∈ row.2.links) :
    e ∈ r.events ∧ e.kind.isFlow = true ∧ e.flow = row.1 :=
  mem_linksOf.mp ((FlowChain.links_infix (mem_flowChains_iff.mp hrow).2).subset he)

end Recording

end EventTrace
