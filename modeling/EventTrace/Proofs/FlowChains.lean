import EventTrace.Proofs.Flows
import Mathlib.Algebra.Order.BigOperators.Group.List
import Mathlib.Data.List.TakeWhile
/-!
# Flow chains — one for every flow that was ended after it was started

A chain spans the links of its flow from the first start to the last end, and
a flow has one exactly if an end comes somewhere after a start
(`FlowChain.ofLinks?_eq_some_iff`, `FlowChain.exists_spans_iff`). Chunks in
time order make links in time order, so no step of a chain takes less than no
time, and its steps together take as long as the chain (`FlowChain.sum_gaps`);
a report has these ticks where words hold them. A table of flows lists each flow
once, so ranking by ticks and flow leaves nothing to chance.
-/

namespace EventTrace

namespace FlowChain

variable {links : List Event} {c : FlowChain}

/-! ## Which chain links make -/

/-- The chain runs from the first start among some links to the last end. -/
structure Spans (c : FlowChain) (links : List Event) : Prop where
  first : c.first.kind = .flowStart
  last : c.last.kind = .flowEnd
  split : ∃ before after, links = before ++ c.links ++ after ∧
    (∀ e ∈ before, e.kind ≠ .flowStart) ∧ ∀ e ∈ after, e.kind ≠ .flowEnd

/-- What is dropped up to a kind has none of the kind. -/
theorem dropWhile_kind {kind : Kind} {events rest : List Event} {e : Event} :
    events.dropWhile (·.kind != kind) = e :: rest ↔
      e.kind = kind ∧ ∃ before, events = before ++ e :: rest ∧ ∀ x ∈ before, x.kind ≠ kind := by
  constructor
  · intro h
    have hhead := List.head?_dropWhile_not (fun x : Event => x.kind != kind) events
    rw [h, List.head?_cons] at hhead
    refine ⟨by simpa using hhead, events.takeWhile (·.kind != kind), ?_, ?_⟩
    · rw [← h, List.takeWhile_append_dropWhile]
    · intro x hx
      simpa using List.mem_takeWhile_imp hx
  · rintro ⟨he, before, rfl, hbefore⟩
    rw [List.dropWhile_append_of_pos fun x hx => by simpa using hbefore x hx]
    exact List.dropWhile_cons_of_neg (by simp [he])

/-- **Links make the chain that spans them**, and no other. -/
theorem ofLinks?_eq_some_iff : ofLinks? links = some c ↔ c.Spans links := by
  obtain ⟨first, middle, last⟩ := c
  constructor
  · intro h
    unfold ofLinks? at h
    split at h
    · exact absurd h (by simp)
    · next start later hfirst =>
      obtain ⟨hstart, before, rfl, hbefore⟩ := dropWhile_kind.mp hfirst
      split at h
      · exact absurd h (by simp)
      · next final inner hlast =>
        obtain ⟨hend, after, hlater, hafter⟩ := dropWhile_kind.mp hlast
        simp only [Option.some.injEq, FlowChain.mk.injEq] at h
        obtain ⟨rfl, rfl, rfl⟩ := h
        refine ⟨hstart, hend, before, after.reverse, ?_, hbefore, ?_⟩
        · rw [← List.reverse_reverse later, hlater]
          simp [FlowChain.links]
        · exact fun e he => hafter e (List.mem_reverse.mp he)
  · rintro ⟨hstart, hend, before, after, rfl, hbefore, hafter⟩
    -- the first start begins what is left of the links, and from behind the last end does
    have hfirst : (before ++ FlowChain.links ⟨first, middle, last⟩ ++ after).dropWhile
        (·.kind != .flowStart) = first :: (middle ++ [last] ++ after) :=
      dropWhile_kind.mpr ⟨hstart, before, by simp [FlowChain.links], hbefore⟩
    have hlast : (middle ++ [last] ++ after).reverse.dropWhile (·.kind != .flowEnd) =
        last :: middle.reverse :=
      dropWhile_kind.mpr ⟨hend, after.reverse, by simp,
        fun e he => hafter e (List.mem_reverse.mp he)⟩
    simp only [ofLinks?, hfirst, hlast, List.reverse_reverse]

/-- **Links make a chain exactly if an end comes after a start.** -/
theorem exists_spans_iff : (∃ c, ofLinks? links = some c) ↔
    ∃ s e, [s, e].Sublist links ∧ s.kind = .flowStart ∧ e.kind = .flowEnd := by
  constructor
  · rintro ⟨c, hc⟩
    obtain ⟨hstart, hend, before, after, rfl, -, -⟩ := ofLinks?_eq_some_iff.mp hc
    refine ⟨c.first, c.last, ?_, hstart, hend⟩
    have hpair : [c.first, c.last].Sublist c.links :=
      (List.sublist_append_right c.middle [c.last]).cons_cons c.first
    exact hpair.trans (List.infix_append before c.links after).sublist
  · rintro ⟨s, e, hsub, hstart, hend⟩
    rw [← List.takeWhile_append_dropWhile (p := (·.kind != .flowStart)) (l := links)] at hsub
    obtain ⟨before, rest, hsplit, hbefore, hrest⟩ := List.sublist_append_iff.mp hsub
    -- the start is not before the first one, so what follows the first one has the end
    obtain rfl : before = [] := by
      cases before with
      | nil => rfl
      | cons x before =>
        obtain ⟨rfl, -⟩ := List.cons.inj hsplit
        simpa [hstart] using List.mem_takeWhile_imp (hbefore.subset List.mem_cons_self)
    rw [List.nil_append] at hsplit
    rw [← hsplit] at hrest
    unfold ofLinks?
    generalize links.dropWhile (·.kind != .flowStart) = rest at hrest
    cases rest with
    | nil => exact absurd hrest (by simp)
    | cons first later =>
      have he : e ∈ later := by
        rcases List.cons_sublist_cons'.mp hrest with hsub | ⟨-, hsub⟩
        · exact hsub.subset (by simp)
        · exact hsub.subset (by simp)
      have hends : later.reverse.dropWhile (·.kind != .flowEnd) ≠ [] := by
        intro hnone
        have hall := List.dropWhile_eq_nil_iff.mp hnone e (List.mem_reverse.mpr he)
        simp [hend] at hall
      dsimp only
      split
      · next hnone => exact absurd hnone hends
      · exact ⟨_, rfl⟩

/-! ## Steps -/

/-- The steps are all links but the last, in order, each with the next. -/
theorem map_steps (c : FlowChain) :
    c.steps.map Prod.fst = c.links.dropLast ∧ c.steps.map Prod.snd = c.links.tail := by
  have hlength : (c.first :: c.middle).length = (c.middle ++ [c.last]).length := by simp
  constructor
  · rw [steps, List.map_fst_zip (Nat.le_of_eq hlength), links, List.dropLast_concat]
  · rw [steps, List.map_snd_zip (Nat.le_of_eq hlength.symm), links, List.cons_append,
      List.tail_cons]

/-- The ticks of a step. -/
def gap (step : Event × Event) : Int := step.2.timestamp - step.1.timestamp

/-- The ticks from the first start to the last end. -/
def span (c : FlowChain) : Int := c.last.timestamp - c.first.timestamp

/-- **The steps of a chain take as long as the chain.** -/
theorem sum_gaps (c : FlowChain) : (c.steps.map gap).sum = c.span := by
  obtain ⟨first, middle, last⟩ := c
  induction middle generalizing first with
  | nil => simp [steps, gap, span]
  | cons e middle ih =>
    have hrest := ih e
    simp only [steps, span, List.cons_append, List.zip_cons_cons, List.map_cons,
      List.sum_cons] at hrest ⊢
    rw [hrest]
    show e.timestamp - first.timestamp + (last.timestamp - e.timestamp) = _
    omega

/-- Links in time order leave no step less than no time. -/
theorem gap_nonneg (h : InTimeOrder c.links) : ∀ step ∈ c.steps, 0 ≤ gap step := by
  obtain ⟨first, middle, last⟩ := c
  induction middle generalizing first with
  | nil =>
    have hle : first.timestamp ≤ last.timestamp := by
      simpa [InTimeOrder, links] using h
    simpa [steps, gap] using hle
  | cons e middle ih =>
    obtain ⟨hfirst, hrest⟩ := List.pairwise_cons.mp h
    have hle : first.timestamp ≤ e.timestamp := hfirst e (by simp)
    intro step hstep
    rcases List.mem_cons.mp hstep with rfl | hstep
    · exact Int.sub_nonneg.mpr hle
    · exact ih e hrest step hstep

end FlowChain

namespace Recording

variable {r : Recording}

/-- Every flow is listed once. -/
theorem nodup_flowChains (r : Recording) : (r.flowChains.map Prod.fst).Nodup := by
  rw [flowChains, ((rankBy_perm _ _).map _).nodup_iff, List.Nodup, List.pairwise_map,
    List.pairwise_filterMap]
  refine (List.pairwise_map.mp r.flowLinks.distinct).imp fun {a b} hne row hrow row' hrow' => ?_
  obtain ⟨_, -, rfl⟩ := Option.map_eq_some_iff.mp hrow
  obtain ⟨_, -, rfl⟩ := Option.map_eq_some_iff.mp hrow'
  exact hne

/-- **Chains stand by ticks, the most first, and then by flow.** -/
theorem pairwise_flowChains (r : Recording) : r.flowChains.Pairwise fun a b =>
    b.2.ticks < a.2.ticks ∨ a.2.ticks = b.2.ticks ∧ a.1 < b.1 := by
  have hranked : r.flowChains.Pairwise fun a b =>
      Ranking.ahead (a.2.ticks, a.1) (b.2.ticks, b.1) = true := pairwise_rankBy _ _
  refine (hranked.and (List.pairwise_map.mp r.nodup_flowChains)).imp fun {a b} hab => ?_
  exact (Ranking.ahead_iff.mp hab.1).imp_right fun hle =>
    ⟨hle.1, lt_of_le_of_ne hle.2 hab.2⟩

/-- A flow has a chain exactly if one of its links is an end that comes after a
start. -/
theorem mem_map_flowChains {flow : Int} : flow ∈ r.flowChains.map Prod.fst ↔
    flow ≠ noFlow ∧ ∃ s e, [s, e].Sublist (r.linksOf flow) ∧
      s.kind = .flowStart ∧ e.kind = .flowEnd := by
  rw [← FlowChain.exists_spans_iff, List.mem_map]
  constructor
  · rintro ⟨row, hrow, rfl⟩
    obtain ⟨hflow, hchain⟩ := mem_flowChains_iff.mp hrow
    exact ⟨hflow, row.2, hchain⟩
  · rintro ⟨hflow, c, hchain⟩
    exact ⟨(flow, c), mem_flowChains_iff.mpr ⟨hflow, hchain⟩, rfl⟩

/-- **Chunks in time order make chains in time order.** -/
theorem inTimeOrder_links (h : ∀ chunk ∈ r.chunks, InTimeOrder chunk) {row : Int × FlowChain}
    (hrow : row ∈ r.flowChains) : InTimeOrder row.2.links := by
  have hwithin := FlowChain.links_infix (mem_flowChains_iff.mp hrow).2
  exact (inTimeOrder_sortedEvents h).sublist (hwithin.sublist.trans List.filter_sublist)

/-- What is said of a flow and its chain: the chain spans the links of the
flow, its steps are all links but the last, each shown with the ticks to the
next, and these are never negative and add up to the ticks of the chain, if
words hold them. -/
structure Extracted (r : Recording) (row : Int × FlowChain) : Prop where
  spans : row.2.Spans (r.linksOf row.1)
  steps : row.2.steps.map Prod.fst = row.2.links.dropLast ∧
    row.2.steps.map Prod.snd = row.2.links.tail
  shown : ∀ step ∈ row.2.steps, 0 ≤ FlowChain.gap step ∧
    (FlowChain.gap step ≤ TickRate.maxTicks →
      (r.showStep step).durationMs = r.rate.toMillis (FlowChain.gap step))
  total : row.2.span ≤ TickRate.maxTicks →
    0 ≤ row.2.ticks ∧ row.2.ticks = (row.2.steps.map FlowChain.gap).sum

theorem extracted (h : ∀ chunk ∈ r.chunks, InTimeOrder chunk) {row : Int × FlowChain}
    (hrow : row ∈ r.flowChains) : r.Extracted row := by
  have hgaps := FlowChain.gap_nonneg (inTimeOrder_links h hrow)
  have hsum := row.2.sum_gaps
  have hspan : 0 ≤ row.2.span := by
    rw [← hsum]
    refine List.sum_nonneg fun ticks hticks => ?_
    obtain ⟨step, hstep, rfl⟩ := List.mem_map.mp hticks
    exact hgaps step hstep
  refine ⟨FlowChain.ofLinks?_eq_some_iff.mp (mem_flowChains_iff.mp hrow).2, row.2.map_steps,
    fun step hstep => ⟨hgaps step hstep, fun hfit => ?_⟩, fun hfit => ?_⟩
  · have hgap : Ticks.wrap (FlowChain.gap step) = FlowChain.gap step :=
      Ticks.wrap_eq_of_nonneg (hgaps step hstep) hfit
    show r.rate.toMillis (max 0 (Ticks.wrap (FlowChain.gap step))) = _
    rw [hgap, max_eq_right (hgaps step hstep)]
  · have hticks : row.2.ticks = row.2.span := Ticks.wrap_eq_of_nonneg hspan hfit
    rw [hticks]
    exact ⟨hspan, hsum.symm⟩

/-- **Flow chains are extracted exactly.** Where every chunk is in time order,
the report has one entry for each flow that was ended somewhere after it was
started, and none for another or for no flow. It shows the chain from the
first start to the last end, with all its steps; no gap between links is
negative, and where words hold them they add up. The entries stand by ticks,
the most first, and then by flow, and a limit keeps the first of them. -/
theorem flows_extracted (r : Recording) (h : ∀ chunk ∈ r.chunks, InTimeOrder chunk) :
    (∀ flow, flow ∈ (r.flows none).map FlowReport.flow ↔
      flow ≠ noFlow ∧ ∃ s e, [s, e].Sublist (r.linksOf flow) ∧
        s.kind = .flowStart ∧ e.kind = .flowEnd) ∧
    ((r.flows none).map FlowReport.flow).Nodup ∧
    r.flows none = r.flowChains.map r.showChain ∧
    (∀ row ∈ r.flowChains, r.Extracted row) ∧
    (r.flowChains.Pairwise fun a b =>
      b.2.ticks < a.2.ticks ∨ a.2.ticks = b.2.ticks ∧ a.1 < b.1) ∧
    ∀ n, r.flows (some n) = (r.flows none).take n := by
  have hflows : (r.flows none).map FlowReport.flow = r.flowChains.map Prod.fst := by
    simp only [flows, List.map_map]
    rfl
  rw [hflows]
  exact ⟨fun flow => mem_map_flowChains, r.nodup_flowChains, rfl,
    fun row hrow => extracted h hrow, r.pairwise_flowChains, fun n => rfl⟩

/-- A flow started twice and ended twice over two threads, and one that was
ended before it was started. -/
def relay : Recording :=
  let link (thread timestamp flow : Int) (kind : Kind) : Event :=
    { id := 9, thread, timestamp, kind, flow }
  .ofEvents [link 1 0 3 .flowStart, link 2 1 5 .flowEnd, link 1 5 3 .flowStart,
    link 2 7 3 .flowStep, link 2 10 3 .flowEnd, link 2 12 5 .flowStart, link 1 20 3 .flowEnd]

/-- The chain of the first flow runs from its first start to its last end; the
other flow has none. -/
theorem flows_extracted_relay :
    (∀ chunk ∈ relay.chunks, InTimeOrder chunk) ∧
    3 ∈ (relay.flows none).map FlowReport.flow ∧ 5 ∉ (relay.flows none).map FlowReport.flow ∧
    ∃ c : FlowChain, (3, c) ∈ relay.flowChains ∧ relay.Extracted (3, c) ∧
      c.links.map Event.timestamp = [0, 5, 7, 10, 20] ∧ c.ticks = 20 ∧
      c.ticks = (c.steps.map FlowChain.gap).sum := by
  have hordered : ∀ chunk ∈ relay.chunks, InTimeOrder chunk := by decide
  obtain ⟨hflows, -, -, hextracted, -, -⟩ := flows_extracted relay hordered
  obtain ⟨c, hc, hlinks, hticks, hfit⟩ : ∃ c, FlowChain.ofLinks? (relay.linksOf 3) = some c ∧
      c.links.map Event.timestamp = [0, 5, 7, 10, 20] ∧ c.ticks = 20 ∧
      c.span ≤ TickRate.maxTicks :=
    ⟨_, rfl, by decide, by decide, by decide⟩
  have hflow : (3 : Int) ≠ noFlow := by decide
  have hrow : (3, c) ∈ relay.flowChains := mem_flowChains_iff.mpr ⟨hflow, hc⟩
  have htold := hextracted _ hrow
  refine ⟨hordered, ?_, ?_, c, hrow, htold, hlinks, hticks, (htold.total hfit).2⟩
  · exact (hflows 3).mpr ⟨by decide, FlowChain.exists_spans_iff.mp ⟨c, hc⟩⟩
  · rw [hflows, ← FlowChain.exists_spans_iff]
    rintro ⟨-, c, hc⟩
    have hnone : FlowChain.ofLinks? (relay.linksOf 5) = none := by decide
    exact absurd (hnone.symm.trans hc) (by simp)

end Recording

end EventTrace
