import EventTrace.Table
import Mathlib.Algebra.BigOperators.Group.List.Basic
import Mathlib.Algebra.Order.Ring.Int
import Mathlib.Data.List.Induction
import Mathlib.Data.List.Nodup
import Mathlib.Tactic.Abel
import Mathlib.Tactic.Common
/-!
# Table — rows, look-ups and sums

A row is what a look-up under its key finds, and a write changes a sum over
the values by what it does to one of them. Read by ascending key, a table is
known by what it finds (`sorted_congr`), and it is filed again from its own
rows (`ofList_rows`).
-/

namespace EventTrace

namespace Table

variable {α : Type}

/-- A row's value is found under its key. -/
theorem get?_of_mem {t : Table α} {row : Int × α} (h : row ∈ t.rows) :
    t.get? row.1 = some row.2 := by
  obtain ⟨rows, distinct⟩ := t
  show find row.1 rows = some row.2
  have hmem : row ∈ rows := h
  clear h
  induction rows with
  | nil => exact absurd hmem List.not_mem_nil
  | cons first rest ih =>
    rw [List.map_cons, List.nodup_cons] at distinct
    rcases List.mem_cons.mp hmem with rfl | hmem
    · exact if_pos rfl
    · have hne : first.1 ≠ row.1 := fun heq => distinct.1 (heq ▸ List.mem_map_of_mem hmem)
      exact (if_neg hne).trans (ih distinct.2 hmem)

/-- What a look-up finds under a key is a row. -/
theorem mem_of_get? {t : Table α} {key : Int} {value : α} (h : t.get? key = some value) :
    (key, value) ∈ t.rows := by
  obtain ⟨rows, distinct⟩ := t
  show (key, value) ∈ rows
  have hfind : find key rows = some value := h
  clear h distinct
  induction rows with
  | nil => exact absurd hfind (by simp [find])
  | cons row rest ih =>
    rw [find] at hfind
    split at hfind
    · next hkey =>
      rw [← hkey, ← Option.some.inj hfind]
      exact List.mem_cons_self
    · exact List.mem_cons_of_mem _ (ih hfind)

/-- The rows in order of their keys are what look-ups find. -/
theorem mem_sorted_iff {t : Table α} {key : Int} {value : α} :
    (key, value) ∈ t.sorted ↔ t.get? key = some value :=
  (List.mergeSort_perm ..).mem_iff.trans ⟨get?_of_mem, mem_of_get?⟩

/-- A write keeps the keys, and files a new one behind them. -/
theorem keys_alter (t : Table α) (key : Int) (write : Option α → α) :
    (t.alter key write).keys = if key ∈ t.keys then t.keys else t.keys ++ [key] := by
  obtain ⟨rows, distinct⟩ := t
  show (put key write rows).map Prod.fst =
    if key ∈ rows.map Prod.fst then rows.map Prod.fst else rows.map Prod.fst ++ [key]
  clear distinct
  induction rows with
  | nil => simp [put]
  | cons row rest ih =>
    obtain ⟨j, v⟩ := row
    by_cases hj : j = key
    · simp [put_cons, hj]
    · rw [put_cons, if_neg hj, List.map_cons, List.map_cons, ih]
      by_cases hkey : key ∈ rest.map Prod.fst
      · rw [if_pos hkey, if_pos (List.mem_cons_of_mem _ hkey)]
      · rw [if_neg hkey, if_neg (by simpa [Ne.symm hj] using hkey)]
        rfl

/-- Values that follow from their keys are listed key by key. -/
theorem values_eq_map_keys {t : Table α} {f : Int → α}
    (h : ∀ key value, t.get? key = some value → value = f key) : t.values = t.keys.map f := by
  rw [keys, List.map_map]
  exact List.map_congr_left fun row hrow => h row.1 row.2 (get?_of_mem hrow)

/-- **A write changes a sum over the values by what it writes**, less what
was there, where what stands for no value counts nothing. -/
theorem sum_values_alter {M : Type} [AddCommMonoid M] (f : α → M) (t : Table α) (key : Int)
    (write : Option α → α) (absent : α) (habsent : f absent = 0) :
    ((t.alter key write).values.map f).sum + f ((t.get? key).getD absent) =
      (t.values.map f).sum + f (write (t.get? key)) := by
  obtain ⟨rows, distinct⟩ := t
  show (((put key write rows).map Prod.snd).map f).sum + f ((find key rows).getD absent) =
    ((rows.map Prod.snd).map f).sum + f (write (find key rows))
  clear distinct
  induction rows with
  | nil => simp [put, find, habsent]
  | cons row rest ih =>
    obtain ⟨j, v⟩ := row
    by_cases hj : j = key
    · simp only [put_cons, find_cons, if_pos hj, List.map_cons, List.sum_cons, Option.getD_some]
      abel
    · simp only [put_cons, find_cons, if_neg hj, List.map_cons, List.sum_cons, add_assoc]
      rw [ih]

/-- **Things summed key by key** are all summed once, if each has one of the
keys. -/
theorem sum_keys {β M : Type} [AddCommMonoid M] (f : β → M) (key : β → Int) {keys : List Int}
    (hkeys : keys.Nodup) {things : List β} (h : ∀ b ∈ things, key b ∈ keys) :
    (keys.map fun k => ((things.filter (key · == k)).map f).sum).sum = (things.map f).sum := by
  induction things with
  | nil => simp
  | cons b rest ih =>
    have hsplit : ∀ k, (((b :: rest).filter (key · == k)).map f).sum =
        (if k = key b then f b else 0) + ((rest.filter (key · == k)).map f).sum := by
      intro k
      by_cases hk : k = key b
      · simp [hk]
      · simp [hk, Ne.symm hk]
    have hone : (keys.map fun k => if k = key b then f b else 0).sum = f b := by
      rw [List.sum_map_eq_nsmul_single (key b) _ fun k hk _ => if_neg hk,
        List.count_eq_one_of_mem hkeys (h b List.mem_cons_self), one_nsmul, if_pos rfl]
    simp only [hsplit, List.sum_map_add, hone, List.map_cons, List.sum_cons]
    rw [ih fun b' hb' => h b' (List.mem_cons_of_mem _ hb')]

/-- What is counted among the things of each key is counted among all. -/
theorem sum_keys_countP_filter {β : Type} (p : β → Bool) (key : β → Int) {keys : List Int}
    (hkeys : keys.Nodup) {things : List β} (h : ∀ b ∈ things, key b ∈ keys) :
    (keys.map fun k => (things.filter (key · == k)).countP p).sum = things.countP p := by
  have hones : ∀ bs : List β, bs.countP p = (bs.map fun b => if p b then 1 else 0).sum := by
    intro bs
    induction bs with
    | nil => rfl
    | cons b rest ih => rw [List.countP_cons, ih, List.map_cons, List.sum_cons, Nat.add_comm]
  simp only [hones]
  exact sum_keys _ key hkeys h

/-- Things that agree key by key are the same things, in some order. -/
theorem perm_of_filter_key {β : Type} [DecidableEq β] (key : β → Int) {things things' : List β}
    (h : ∀ k, things'.filter (key · == k) = things.filter (key · == k)) :
    things'.Perm things := by
  refine List.perm_iff_count.mpr fun b => ?_
  have hown : ∀ bs : List β, bs.count b = (bs.filter (key · == key b)).count b := by
    intro bs
    refine (List.count_filter ?_).symm
    exact beq_self_eq_true (key b)
  rw [hown, h, ← hown]

/-- Things counted key by key are all counted once, if each has a key of the
table. -/
theorem sum_keys_countP {β : Type} (t : Table α) (key : β → Int) {things : List β}
    (h : ∀ b ∈ things, key b ∈ t.keys) :
    (t.keys.map fun k => things.countP (key · == k)).sum = things.length := by
  have hsum := sum_keys_countP_filter (fun _ => true) key t.nodup_keys h
  simpa only [List.countP_true, ← List.countP_eq_length_filter] using hsum

/-- **Things filed one by one** are found under their keys, each key's in
their order. -/
theorem get?_filed {β : Type} (key : β → Int) (things : List β) (k : Int) :
    (things.foldl (fun t b => t.alter (key b) fun list => (list.getD #[]).push b)
      (∅ : Table (Array β))).get? k =
        if things.filter (key · == k) = [] then none
        else some (things.filter (key · == k)).toArray := by
  induction things using List.reverseRecOn with
  | nil => rfl
  | append_singleton things b ih =>
    rw [List.foldl_append, List.foldl_cons, List.foldl_nil, get?_alter, List.filter_append]
    by_cases hk : k = key b
    · subst hk
      rw [if_pos rfl, ih]
      split
      · next hnone => simp [hnone]
      · simp
    · rw [if_neg hk, ih]
      simp [Ne.symm hk]

/-! ## Tables that find the same -/

variable {t t' : Table α}

/-- A key of a table is one under which it finds something. -/
theorem mem_keys_iff {key : Int} : key ∈ t.keys ↔ ∃ value, t.get? key = some value := by
  constructor
  · intro hkey
    obtain ⟨row, hrow, rfl⟩ := List.mem_map.mp hkey
    exact ⟨row.2, get?_of_mem hrow⟩
  · rintro ⟨value, hvalue⟩
    exact List.mem_map_of_mem (mem_of_get? hvalue)

/-- Tables that find the same have the same rows, in some order. -/
theorem rows_perm (h : ∀ key, t.get? key = t'.get? key) : t.rows.Perm t'.rows := by
  refine (List.perm_ext_iff_of_nodup (.of_map Prod.fst t.distinct)
    (.of_map Prod.fst t'.distinct)).mpr fun row => ?_
  constructor
  · intro hrow
    exact mem_of_get? ((h row.1).symm.trans (get?_of_mem hrow))
  · intro hrow
    exact mem_of_get? ((h row.1).trans (get?_of_mem hrow))

/-- The rows in order of their keys have their keys ascending. -/
theorem pairwise_sorted (t : Table α) : t.sorted.Pairwise fun a b => a.1 < b.1 := by
  have hle : t.sorted.Pairwise fun a b => a.1 ≤ b.1 := by
    have hsorted := @List.pairwise_mergeSort (Int × α) (fun a b => decide (a.1 ≤ b.1))
      (fun a b c hab hbc => by simp only [decide_eq_true_eq] at *; omega)
      (fun a b => by simp only [Bool.or_eq_true, decide_eq_true_eq]; omega) t.rows
    simpa only [sorted, decide_eq_true_eq] using hsorted
  have hdistinct : (t.sorted.map Prod.fst).Nodup :=
    ((List.mergeSort_perm ..).map _).nodup_iff.mpr t.distinct
  refine (hle.and (List.pairwise_map.mp hdistinct)).imp fun {a b} ⟨hle, hne⟩ => ?_
  omega

/-- **By ascending key, tables that find the same are the same.** -/
theorem sorted_congr (h : ∀ key, t.get? key = t'.get? key) : t.sorted = t'.sorted := by
  have hperm : t.sorted.Perm t'.sorted :=
    (List.mergeSort_perm ..).trans ((rows_perm h).trans (List.mergeSort_perm ..).symm)
  refine hperm.eq_of_pairwise (fun a b _ _ hab hba => ?_) t.pairwise_sorted t'.pairwise_sorted
  exact absurd hab (Int.not_lt.mpr (Int.le_of_lt hba))

end Table

end EventTrace
