/-!
# Ranking — most expensive first

Every report lists its rows by ticks, the most first, and among equal ticks
by id, the least first. Ranking is done on ticks, before any conversion, and
is total on rows of distinct ids, so a report does not depend on the order
in which its rows were gathered.
-/

namespace EventTrace

namespace Ranking

/-- Whether a row of some ticks and id may stand before another. -/
def ahead (a b : Int × Int) : Bool := b.1 < a.1 || (a.1 == b.1 && a.2 ≤ b.2)

theorem ahead_iff {a b : Int × Int} : ahead a b = true ↔ b.1 < a.1 ∨ a.1 = b.1 ∧ a.2 ≤ b.2 := by
  simp [ahead]

theorem ahead_trans {a b c : Int × Int} (hab : ahead a b = true) (hbc : ahead b c = true) :
    ahead a c = true := by
  rw [ahead_iff] at *; omega

theorem ahead_total (a b : Int × Int) : (ahead a b || ahead b a) = true := by
  rw [Bool.or_eq_true, ahead_iff, ahead_iff]; omega

/-- Two rows that may each stand before the other agree in ticks and id. -/
theorem eq_of_ahead {a b : Int × Int} (hab : ahead a b = true) (hba : ahead b a = true) :
    a = b := by
  rw [ahead_iff] at *
  exact Prod.ext (by omega) (by omega)

end Ranking

/-- Rows by ticks descending, then id ascending. -/
def rankBy {α : Type} (place : α → Int × Int) (rows : List α) : List α :=
  rows.mergeSort fun a b => Ranking.ahead (place a) (place b)

/-- Ranking only reorders. -/
theorem rankBy_perm {α : Type} (place : α → Int × Int) (rows : List α) :
    (rankBy place rows).Perm rows :=
  List.mergeSort_perm ..

/-- **Ranked rows stand in order.** -/
theorem pairwise_rankBy {α : Type} (place : α → Int × Int) (rows : List α) :
    (rankBy place rows).Pairwise fun a b => Ranking.ahead (place a) (place b) = true :=
  @List.pairwise_mergeSort α (fun a b => Ranking.ahead (place a) (place b))
    (fun _ _ _ => Ranking.ahead_trans) (fun a b => Ranking.ahead_total (place a) (place b)) rows

/-- Rows are ranked by their places, whatever else is made of them. -/
theorem map_rankBy {α β : Type} {place : α → Int × Int} {place' : β → Int × Int} {f : α → β}
    (h : ∀ a, place' (f a) = place a) (rows : List α) :
    (rankBy place rows).map f = rankBy place' (rows.map f) :=
  List.map_mergeSort fun a _ b _ => by rw [h, h]

/-- **The order in which rows were gathered does not matter**, if no two of
them have one place. -/
theorem rankBy_eq_of_perm {α : Type} {place : α → Int × Int} {rows rows' : List α}
    (hperm : rows.Perm rows')
    (hplace : ∀ a ∈ rows, ∀ b ∈ rows', place a = place b → a = b) :
    rankBy place rows = rankBy place rows' := by
  have hranked := (rankBy_perm place rows).trans (hperm.trans (rankBy_perm place rows').symm)
  refine hranked.eq_of_pairwise (fun a b ha hb hab hba => ?_) (pairwise_rankBy place rows)
    (pairwise_rankBy place rows')
  exact hplace a ((rankBy_perm place rows).mem_iff.mp ha) b
    ((rankBy_perm place rows').mem_iff.mp hb) (Ranking.eq_of_ahead hab hba)

end EventTrace
