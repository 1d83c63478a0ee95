import EventTrace.Proofs.Profile.Figures
/-!
# Profile — a report, row by row

The rows of a report are those of the ids on record, one each, and in what
order scopes were put on record does not show. If words hold what the scopes
sum up to, each row tells the sums of its own scopes
(`Hotspots.tells_of_mem_report`), and rows are ranked by the inclusive ticks of
their scopes and then by id, and no two ids tie (`Hotspots.pairwise_report`).
All of this is said of the scopes as a multiset (`Hotspots.report_by_scopes`).
-/

namespace EventTrace

namespace ClosedScope

variable {scopes : List ClosedScope} {id : Int}

/-- The scopes of an id. -/
def ofId (id : Int) (scopes : List ClosedScope) : List ClosedScope := scopes.filter (·.id == id)

/-- The inclusive ticks of an id's scopes. -/
def inclusiveOf (id : Int) (scopes : List ClosedScope) : Int :=
  ((ofId id scopes).map inclusive).sum

/-- The exclusive ticks of an id's scopes. -/
def exclusiveOf (id : Int) (scopes : List ClosedScope) : Int :=
  ((ofId id scopes).map exclusive).sum

theorem mem_ofId {scope : ClosedScope} :
    scope ∈ ofId id scopes ↔ scope ∈ scopes ∧ scope.id = id := by
  rw [ofId, List.mem_filter, beq_iff_eq]

/-- Words hold what the scopes of each id sum up to, and the exclusive ticks of
all of them. -/
structure SumsFit (scopes : List ClosedScope) : Prop where
  inclusive : ∀ scope ∈ scopes, Ticks.Fit (inclusiveOf scope.id scopes)
  exclusive : ∀ scope ∈ scopes, Ticks.Fit (exclusiveOf scope.id scopes)
  total : Ticks.Fit (scopes.map ClosedScope.exclusive).sum

/-- What the scopes of an id amount to: their number and their ticks. -/
theorem sum_amountOf (id : Int) (scopes : List ClosedScope) :
    (scopes.map fun scope => amountOf id (some scope)).sum =
      ((ofId id scopes).length, inclusiveOf id scopes, exclusiveOf id scopes) := by
  induction scopes with
  | nil => rfl
  | cons scope rest ih =>
    rw [List.map_cons, List.sum_cons, ih, inclusiveOf, exclusiveOf, ofId, amountOf]
    by_cases hid : scope.id = id
    · simp [hid, amount, inclusiveOf, exclusiveOf, ofId, Nat.add_comm]
    · simp [hid, inclusiveOf, exclusiveOf, ofId]

end ClosedScope

open ClosedScope

/-- A row tells of the scopes of its id: how many there are, what their ticks
sum up to, which part of all exclusive ticks that is, and how many of them each
thread closed, by ascending thread. -/
structure HotspotRow.Tells (scopes : List ClosedScope) (rate : TickRate)
    (metadata : Option Provider) (row : HotspotRow) : Prop where
  name : row.name = displayName metadata row.id
  count : row.count = (ofId row.id scopes).length
  inclusiveMs : row.inclusiveMs = rate.toMillis (inclusiveOf row.id scopes)
  exclusiveMs : row.exclusiveMs = rate.toMillis (exclusiveOf row.id scopes)
  percentage : row.exclusivePercentage =
    let whole := (scopes.map exclusive).sum
    if 0 < whole then Float.ofInt (exclusiveOf row.id scopes) / Float.ofInt whole * 100.0 else 0.0
  threads : ∀ t n, (t, n) ∈ row.threads ↔ 0 < n ∧ n = (ofId row.id scopes).countP (·.thread == t)
  ascending : row.threads.Pairwise fun a b => a.1 < b.1
  total : (row.threads.map Prod.snd).sum = row.count

namespace Hotspots

variable {scopes scopes' : List ClosedScope} {rate : TickRate} {metadata : Option Provider}
variable {row : HotspotRow} {totals : IdTotals} {id : Int}

/-- An id has a row exactly if some scope of it is on record. -/
theorem get?_ofScopes_iff :
    (∃ totals, (ofScopes scopes).ids.get? id = some totals) ↔ ∃ scope ∈ scopes, scope.id = id := by
  have hcount : ((ofScopes scopes).totals id).count = (ofId id scopes).length := by
    have hamount := (amount_ofScopes scopes id).trans
      (congrArg Amount.wrapped (sum_amountOf id scopes))
    exact congrArg Prod.fst hamount
  rw [(counted_ofScopes scopes).get?_iff, hcount, List.length_pos_iff_exists_mem]
  exact exists_congr fun scope => mem_ofId

/-- The totals of a row are those of its id's scopes. -/
theorem totals_of_get? (hfit : SumsFit scopes)
    (hrow : (ofScopes scopes).ids.get? id = some totals) :
    totals.amount = ((ofId id scopes).length, inclusiveOf id scopes, exclusiveOf id scopes) := by
  obtain ⟨scope, hscope, rfl⟩ := get?_ofScopes_iff.mp ⟨totals, hrow⟩
  have hsums : Amount.Fit ((ofId scope.id scopes).length, inclusiveOf scope.id scopes,
      exclusiveOf scope.id scopes) := ⟨hfit.inclusive scope hscope, hfit.exclusive scope hscope⟩
  rw [← hsums.wrapped_eq, ← sum_amountOf, ← amount_ofScopes, Hotspots.totals, hrow,
    Option.getD_some]

/-- In the row of an id, a thread stands with the scopes it closed, if it closed
any. -/
theorem get?_threads_ofScopes (hrow : (ofScopes scopes).ids.get? id = some totals) (t : Int) :
    totals.threads.get? t =
      if (ofId id scopes).countP (·.thread == t) = 0 then none
      else some ((ofId id scopes).countP (·.thread == t)) := by
  have hclosed : (ofScopes scopes).closedBy id t = (ofId id scopes).countP (·.thread == t) := by
    rw [closedBy_ofScopes, ofId, List.countP_filter]
    exact List.countP_congr fun scope _ => by simp [and_comm]
  rw [(counted_ofScopes scopes).get?_threads hrow, hclosed]

/-- The threads of a row closed its scopes together. -/
theorem sum_threads_ofScopes (hrow : (ofScopes scopes).ids.get? id = some totals) :
    (totals.threads.sorted.map Prod.snd).sum = (ofId id scopes).length := by
  have hperm : totals.threads.sorted.Perm totals.threads.rows := List.mergeSort_perm ..
  have hthreads := get?_threads_ofScopes hrow
  have hvalues : totals.threads.values =
      totals.threads.keys.map fun t => (ofId id scopes).countP (·.thread == t) := by
    refine Table.values_eq_map_keys fun t n hn => ?_
    rw [hthreads] at hn
    split at hn
    · exact absurd hn (by simp)
    · exact (Option.some.inj hn).symm
  rw [(hperm.map Prod.snd).sum_eq, ← Table.values, hvalues]
  refine Table.sum_keys_countP _ ClosedScope.thread fun scope hscope => ?_
  rw [Table.mem_keys_iff, hthreads, if_neg]
  · exact ⟨_, rfl⟩
  · exact Nat.ne_of_gt (List.countP_pos_iff.mpr ⟨scope, hscope, beq_self_eq_true _⟩)

/-- The ids of a report are those of its rows in ticks. -/
theorem ids_report (h : Hotspots) (rate : TickRate) (metadata : Option Provider) :
    (h.report rate metadata).map HotspotRow.id = h.ranked.map Prod.fst := by
  rw [report, List.map_map]
  rfl

/-- The ids on record have a row each, and no other id has. -/
theorem mem_ids_report : id ∈ ((ofScopes scopes).report rate metadata).map HotspotRow.id ↔
    ∃ scope ∈ scopes, scope.id = id := by
  rw [ids_report, List.mem_map, ← get?_ofScopes_iff]
  constructor
  · rintro ⟨row, hrow, rfl⟩
    exact ⟨row.2, Replay.mem_ranked.mp hrow⟩
  · rintro ⟨totals, hrow⟩
    exact ⟨(id, totals), Replay.mem_ranked.mpr hrow, rfl⟩

/-- **A reported row tells of the scopes of its id.** -/
theorem tells_of_mem_report (hfit : SumsFit scopes)
    (hrow : row ∈ (ofScopes scopes).report rate metadata) : row.Tells scopes rate metadata := by
  obtain ⟨⟨id, totals⟩, hranked, rfl⟩ := List.mem_map.mp hrow
  have hfound : (ofScopes scopes).ids.get? id = some totals := Replay.mem_ranked.mp hranked
  obtain ⟨hcount, hinclusive, hexclusive⟩ :
      totals.count = (ofId id scopes).length ∧ totals.inclusive = inclusiveOf id scopes ∧
        totals.exclusive = exclusiveOf id scopes := by
    simpa only [IdTotals.amount, Prod.mk.injEq] using totals_of_get? hfit hfound
  refine ⟨rfl, hcount, congrArg rate.toMillis hinclusive, congrArg rate.toMillis hexclusive, ?_,
    fun t n => ?_, totals.threads.pairwise_sorted, (sum_threads_ofScopes hfound).trans hcount.symm⟩
  · show (ofScopes scopes).share totals.exclusive = _
    rw [share, totalExclusive_ofScopes, hfit.total.wrap_eq, hexclusive]
  · rw [Table.mem_sorted_iff, get?_threads_ofScopes hfound]
    constructor
    · intro hn
      split at hn
      · exact absurd hn (by simp)
      · next hpos =>
        obtain rfl := Option.some.inj hn
        exact ⟨Nat.pos_of_ne_zero hpos, rfl⟩
    · rintro ⟨hpos, rfl⟩
      exact if_neg (Nat.ne_of_gt hpos)

/-- **Rows stand by inclusive ticks, the most first, and then by id**, and no
two of them in one place. -/
theorem pairwise_report (hfit : SumsFit scopes) (rate : TickRate) (metadata : Option Provider) :
    (((ofScopes scopes).report rate metadata).map HotspotRow.id).Pairwise fun i j =>
      inclusiveOf j scopes < inclusiveOf i scopes ∨
        inclusiveOf i scopes = inclusiveOf j scopes ∧ i < j := by
  have hdistinct : (ofScopes scopes).ranked.Pairwise fun a b => a.1 ≠ b.1 :=
    List.pairwise_map.mp (((rankBy_perm _ _).map _).nodup_iff.mpr (ofScopes scopes).ids.distinct)
  have hahead := pairwise_rankBy (fun row : Int × IdTotals => (row.2.inclusive, row.1))
    (ofScopes scopes).ids.rows
  have hticks : ∀ row ∈ (ofScopes scopes).ranked, row.2.inclusive = inclusiveOf row.1 scopes :=
    fun row hrow =>
      congrArg (fun amount => amount.2.1) (totals_of_get? hfit (Replay.mem_ranked.mp hrow))
  rw [ids_report, List.pairwise_map]
  refine (hdistinct.and hahead).imp_of_mem fun {a b} ha hb ⟨hne, hahead⟩ => ?_
  rw [Ranking.ahead_iff] at hahead
  dsimp only at hahead
  rw [hticks a ha, hticks b hb] at hahead
  omega

/-- **A report depends on the multiset of scopes alone.** Scopes put on record
in another order give the same rows, one for each id on record. If words hold
what the scopes sum up to, a row tells of its id's scopes, with its share of the
exclusive ticks of all scopes; and rows stand by inclusive ticks, the most
first, and then by id. -/
theorem report_by_scopes (hperm : scopes'.Perm scopes) (rate : TickRate)
    (metadata : Option Provider) :
    let report := (ofScopes scopes).report rate metadata
    (ofScopes scopes').report rate metadata = report ∧
    ((report.map HotspotRow.id).Nodup ∧
      ∀ id, id ∈ report.map HotspotRow.id ↔ ∃ scope ∈ scopes, scope.id = id) ∧
    (SumsFit scopes → (∀ row ∈ report, row.Tells scopes rate metadata) ∧
      report.Pairwise fun a b => inclusiveOf b.id scopes < inclusiveOf a.id scopes ∨
        inclusiveOf a.id scopes = inclusiveOf b.id scopes ∧ a.id < b.id) := by
  intro report
  have hdistinct : (report.map HotspotRow.id).Nodup := by
    rw [ids_report]
    exact ((rankBy_perm _ _).map _).nodup_iff.mpr (ofScopes scopes).ids.distinct
  exact ⟨report_ofScopes_perm hperm rate metadata, ⟨hdistinct, fun id => mem_ids_report⟩,
    fun hfit => ⟨fun row => tells_of_mem_report hfit,
      List.pairwise_map.mp (pairwise_report hfit rate metadata)⟩⟩

/-- Three scopes of two threads, in two orders: two ids tie in their ticks. -/
theorem report_by_scopes_tied :
    let scope (id thread inclusive exclusive : Int) : ClosedScope :=
      { id, thread, inclusive, exclusive }
    let scopes := [scope 1 1 3 1, scope 2 1 5 5, scope 1 2 2 2]
    let scopes' := [scope 2 1 5 5, scope 1 1 3 1, scope 1 2 2 2]
    scopes'.Perm scopes ∧
    (ofScopes scopes').report .nanoseconds none = (ofScopes scopes).report .nanoseconds none ∧
    ((ofScopes scopes).report .nanoseconds none).map HotspotRow.id = [1, 2] ∧
    SumsFit scopes ∧
    ∀ row ∈ (ofScopes scopes).report .nanoseconds none, row.Tells scopes .nanoseconds none := by
  intro scope scopes scopes'
  have hperm : scopes'.Perm scopes := by decide
  have hranked : (ofScopes scopes).ranked = (ofScopes scopes).ids.rows :=
    List.mergeSort_of_pairwise (by decide)
  have hfit : SumsFit scopes := ⟨by decide, by decide, by decide⟩
  obtain ⟨hsame, -, htells⟩ := report_by_scopes hperm .nanoseconds none
  exact ⟨hperm, hsame, by rw [ids_report, hranked]; rfl, hfit, (htells hfit).1⟩

end Hotspots

end EventTrace
