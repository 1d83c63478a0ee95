import EventTrace.Proofs.Profile.Rows
/-!
# Profile — hotspots as the figures of their scopes

Hotspots are fed one scope at a time, but their rows do not tell in which
order. What a row shows are its figures: the id, what its scopes amount to,
and how many each thread closed, by ascending thread. These are sums over the
scopes on record (`Hotspots.amount_ofScopes`, `Hotspots.closedBy_ofScopes`),
wrapped around where no word holds them, and rows are ranked by them alone, so
scopes in another order give the same report (`Hotspots.report_ofScopes_perm`).
-/

namespace EventTrace

namespace Hotspots

variable {h h' : Hotspots} {scopes scopes' : List ClosedScope} {id t : Int}

/-! ## Sums over the scopes on record -/

/-- The hotspots of some scopes, put on record in order. -/
def ofScopes (scopes : List ClosedScope) : Hotspots := scopes.foldl record {}

theorem ofScopes_concat (scopes : List ClosedScope) (scope : ClosedScope) :
    ofScopes (scopes ++ [scope]) = (ofScopes scopes).recordAny (some scope) :=
  List.foldl_concat ..

theorem counted_ofScopes (scopes : List ClosedScope) : (ofScopes scopes).Counted := by
  induction scopes using List.reverseRecOn with
  | nil => exact fun _ _ hrow => nomatch hrow
  | append_singleton scopes scope ih =>
    rw [ofScopes_concat]
    exact ih.recordAny _

/-- Words hold the totals of an id, row or none. -/
theorem Counted.fit_totals (hcounted : h.Counted) (id : Int) : (h.totals id).amount.Fit := by
  rw [totals]
  cases hrow : h.ids.get? id with
  | none => exact ⟨by decide, by decide⟩
  | some totals => exact (hcounted id totals hrow).fit

/-- The totals of an id are what its scopes amount to, as words have it. -/
theorem amount_ofScopes (scopes : List ClosedScope) (id : Int) :
    ((ofScopes scopes).totals id).amount =
      (scopes.map fun scope => ClosedScope.amountOf id (some scope)).sum.wrapped := by
  rw [((counted_ofScopes scopes).fit_totals id).eq_wrapped_iff]
  induction scopes using List.reverseRecOn with
  | nil => rfl
  | append_singleton scopes scope ih =>
    rw [ofScopes_concat, amount_recordAny, ih, List.map_append, List.sum_append,
      List.map_singleton, List.sum_singleton, map_add]

/-- In the row of an id, each thread has as many scopes as it closed. -/
theorem closedBy_ofScopes (scopes : List ClosedScope) (id t : Int) :
    (ofScopes scopes).closedBy id t =
      scopes.countP fun scope => scope.id == id && scope.thread == t := by
  induction scopes using List.reverseRecOn with
  | nil => rfl
  | append_singleton scopes scope ih =>
    rw [ofScopes_concat, closedBy_recordAny, ih, List.countP_append]
    by_cases hid : scope.id = id
    · by_cases ht : scope.thread = t
      · simp [ClosedScope.amountOf, ClosedScope.amount, hid, ht]
      · simp [ht]
    · simp [ClosedScope.amountOf, hid]

theorem totalExclusive_ofScopes (scopes : List ClosedScope) :
    (ofScopes scopes).totalExclusive = Ticks.wrap (scopes.map ClosedScope.exclusive).sum := by
  induction scopes using List.reverseRecOn with
  | nil => rfl
  | append_singleton scopes scope ih =>
    rw [ofScopes_concat, List.map_append, List.sum_append, ← Ticks.wrap_wrap_add, ← ih,
      List.map_singleton, List.sum_singleton]
    rfl

/-! ## Figures -/

/-- What a row shows: its id, what its scopes amount to, and how many each
thread closed. -/
def figures (row : Int × IdTotals) : Int × Amount × List (Int × Nat) :=
  (row.1, row.2.amount, row.2.threads.sorted)

/-- Rows are ranked by their figures. -/
theorem map_figures_ranked (h : Hotspots) :
    h.ranked.map figures =
      rankBy (fun f => (f.2.1.2.1, f.1)) (h.ids.rows.map figures) := by
  refine map_rankBy ?_ h.ids.rows
  exact fun row => rfl

/-- A row of figures, as reported among rows of some exclusive ticks. -/
def showFigures (whole : Hotspots) (rate : TickRate) (metadata : Option Provider)
    (f : Int × Amount × List (Int × Nat)) : HotspotRow where
  id := f.1
  name := displayName metadata f.1
  count := f.2.1.1
  inclusiveMs := rate.toMillis f.2.1.2.1
  exclusiveMs := rate.toMillis f.2.1.2.2
  exclusivePercentage := whole.share f.2.1.2.2
  threads := f.2.2

theorem report_eq (h : Hotspots) (rate : TickRate) (metadata : Option Provider) :
    h.report rate metadata = (h.ranked.map figures).map (h.showFigures rate metadata) := by
  rw [List.map_map]
  rfl

/-- Two hotspots of the same totals. -/
structure Same (h h' : Hotspots) : Prop where
  amounts : ∀ id, (h'.totals id).amount = (h.totals id).amount
  closedBy : ∀ id t, h'.closedBy id t = h.closedBy id t
  totalExclusive : h'.totalExclusive = h.totalExclusive

theorem Same.symm (hsame : Same h h') : Same h' h where
  amounts id := (hsame.amounts id).symm
  closedBy id t := (hsame.closedBy id t).symm
  totalExclusive := hsame.totalExclusive.symm

/-- A thread is in the row of an id exactly if it closed some scope of it. -/
theorem Counted.get?_threads (hcounted : h.Counted) {totals : IdTotals}
    (hrow : h.ids.get? id = some totals) (t : Int) :
    totals.threads.get? t = if h.closedBy id t = 0 then none else some (h.closedBy id t) := by
  have hclosed : h.closedBy id t = (totals.threads.get? t).getD 0 := by
    rw [closedBy, Hotspots.totals, hrow]
    rfl
  cases hget : totals.threads.get? t with
  | none =>
    rw [hget] at hclosed
    rw [if_pos (by simpa using hclosed)]
  | some n =>
    rw [hget, Option.getD_some] at hclosed
    have hpos := (hcounted id totals hrow).threads t n hget
    rw [hclosed, if_neg (by omega)]

/-- Every row of the one has the figures of a row of the other. -/
theorem Same.mem_figures (hsame : Same h h') (hc : h.Counted) (hc' : h'.Counted)
    {f : Int × Amount × List (Int × Nat)} (hf : f ∈ h.ids.rows.map figures) :
    f ∈ h'.ids.rows.map figures := by
  obtain ⟨⟨id, totals⟩, hmem, rfl⟩ := List.mem_map.mp hf
  have hrow : h.ids.get? id = some totals := Table.get?_of_mem hmem
  have htotals : h.totals id = totals := by
    rw [Hotspots.totals, hrow]
    rfl
  have hamount := hsame.amounts id
  rw [htotals] at hamount
  -- the other counts as many scopes of the id, so it has a row for it
  have hcount : 0 < (h'.totals id).count := by
    have hfst : (h'.totals id).count = totals.count := congrArg Prod.fst hamount
    rw [hfst]
    exact (hc id totals hrow).pos
  obtain ⟨totals', hrow'⟩ := hc'.get?_iff.mpr hcount
  have htotals' : h'.totals id = totals' := by
    rw [Hotspots.totals, hrow']
    rfl
  rw [htotals'] at hamount
  have hthreads : totals'.threads.sorted = totals.threads.sorted := by
    refine Table.sorted_congr fun t => ?_
    rw [hc'.get?_threads hrow', hc.get?_threads hrow, hsame.closedBy]
  refine List.mem_map.mpr ⟨(id, totals'), Table.mem_of_get? hrow', ?_⟩
  simp only [figures, hamount, hthreads]

theorem nodup_figures (h : Hotspots) : (h.ids.rows.map figures).Nodup := by
  have hids : (h.ids.rows.map figures).map Prod.fst = h.ids.rows.map Prod.fst := by
    rw [List.map_map]
    rfl
  exact .of_map Prod.fst (hids ▸ h.ids.distinct)

/-- Two rows of one id have the same figures. -/
theorem eq_of_mem_figures {f g : Int × Amount × List (Int × Nat)}
    (hf : f ∈ h.ids.rows.map figures) (hg : g ∈ h.ids.rows.map figures) (hid : f.1 = g.1) :
    f = g := by
  obtain ⟨row, hrow, rfl⟩ := List.mem_map.mp hf
  obtain ⟨row', hrow', rfl⟩ := List.mem_map.mp hg
  have hid : row.1 = row'.1 := hid
  have hvalue := Table.get?_of_mem hrow
  rw [hid, Table.get?_of_mem hrow', Option.some.injEq] at hvalue
  rw [Prod.ext hid hvalue.symm]

/-- **Hotspots of the same totals have the same rows**, in the same order. -/
theorem Same.figures (hsame : Same h h') (hc : h.Counted) (hc' : h'.Counted) :
    h'.ranked.map figures = h.ranked.map figures := by
  have hperm : (h'.ids.rows.map Hotspots.figures).Perm (h.ids.rows.map Hotspots.figures) :=
    (List.perm_ext_iff_of_nodup h'.nodup_figures h.nodup_figures).mpr fun f =>
      ⟨hsame.symm.mem_figures hc' hc, hsame.mem_figures hc hc'⟩
  rw [map_figures_ranked, map_figures_ranked]
  refine rankBy_eq_of_perm hperm fun f hf g hg hplace => ?_
  exact eq_of_mem_figures (hperm.mem_iff.mp hf) hg (congrArg Prod.snd hplace)

theorem Same.report (hsame : Same h h') (hc : h.Counted) (hc' : h'.Counted) (rate : TickRate)
    (metadata : Option Provider) : h'.report rate metadata = h.report rate metadata := by
  have hshown : h'.showFigures rate metadata = h.showFigures rate metadata := by
    funext f
    simp only [showFigures, share, hsame.totalExclusive]
  rw [report_eq, report_eq, hsame.figures hc hc', hshown]

/-- The order of the scopes on record changes no total. -/
theorem same_ofScopes (hperm : scopes'.Perm scopes) :
    Same (ofScopes scopes) (ofScopes scopes') where
  amounts id := by rw [amount_ofScopes, amount_ofScopes, (hperm.map _).sum_eq]
  closedBy id t := by rw [closedBy_ofScopes, closedBy_ofScopes, hperm.countP_eq]
  totalExclusive := by
    rw [totalExclusive_ofScopes, totalExclusive_ofScopes, (hperm.map _).sum_eq]

/-- **The order of the scopes on record changes no row.** -/
theorem report_ofScopes_perm (hperm : scopes'.Perm scopes) (rate : TickRate)
    (metadata : Option Provider) :
    (ofScopes scopes').report rate metadata = (ofScopes scopes).report rate metadata :=
  (same_ofScopes hperm).report (counted_ofScopes scopes) (counted_ofScopes scopes') rate metadata

end Hotspots

end EventTrace
