/-!
# Table — values filed under integer keys

Ids, threads and flows are integers, and most of what the library counts
is counted per id, thread or flow. A table files one value under each key
and keeps its rows in the order in which the keys were first used, so a
reader of the rows needs no order of its own. `alter` is the one write;
`get?_alter` says what every look-up sees after it, and `sorted` gives the
rows by ascending key.
-/

namespace EventTrace

/-- Rows of distinct integer keys, in the order of each key's first use. -/
structure Table (α : Type) where
  rows : List (Int × α)
  distinct : (rows.map Prod.fst).Nodup

namespace Table

variable {α β : Type}

/-! ## Rows -/

/-- The value of the first row under a key. -/
def find (key : Int) : List (Int × α) → Option α
  | [] => none
  | row :: rest => if row.1 = key then some row.2 else find key rest

/-- Changes the row under a key in place, or files a new last row. -/
def put (key : Int) (write : Option α → α) : List (Int × α) → List (Int × α)
  | [] => [(key, write none)]
  | (k, v) :: rest => if k = key then (k, write (some v)) :: rest else (k, v) :: put key write rest

@[simp] theorem put_cons (key j : Int) (v : α) (write : Option α → α) (rest : List (Int × α)) :
    put key write ((j, v) :: rest) =
      if j = key then (j, write (some v)) :: rest else (j, v) :: put key write rest := rfl

@[simp] theorem find_cons (key j : Int) (v : α) (rest : List (Int × α)) :
    find key ((j, v) :: rest) = if j = key then some v else find key rest := rfl

theorem mem_keys_put {key k : Int} {write : Option α → α} {rows : List (Int × α)} :
    k ∈ (put key write rows).map Prod.fst ↔ k = key ∨ k ∈ rows.map Prod.fst := by
  induction rows with
  | nil => simp [put]
  | cons row rest ih =>
    obtain ⟨j, v⟩ := row
    by_cases hj : j = key
    · simp [put_cons, hj]
    · simp only [put_cons, if_neg hj, List.map_cons, List.mem_cons, ih]
      exact or_left_comm

/-- Writing under a key never makes a second row for it. -/
theorem nodup_keys_put {key : Int} {write : Option α → α} {rows : List (Int × α)}
    (h : (rows.map Prod.fst).Nodup) : ((put key write rows).map Prod.fst).Nodup := by
  induction rows with
  | nil => simp [put]
  | cons row rest ih =>
    obtain ⟨j, v⟩ := row
    rw [List.map_cons, List.nodup_cons] at h
    by_cases hj : j = key
    · rw [put_cons, if_pos hj, List.map_cons, List.nodup_cons]
      exact h
    · rw [put_cons, if_neg hj, List.map_cons, List.nodup_cons, mem_keys_put]
      exact ⟨fun hmem => hmem.elim hj h.1, ih h.2⟩

theorem find_put {key k : Int} {write : Option α → α} {rows : List (Int × α)} :
    find k (put key write rows) =
      if k = key then some (write (find key rows)) else find k rows := by
  induction rows with
  | nil => grind [put, find]
  | cons row rest ih =>
    obtain ⟨j, v⟩ := row
    grind [put_cons, find_cons]

/-! ## The table -/

/-- The table without rows. -/
def empty : Table α := ⟨[], List.nodup_nil⟩

instance : EmptyCollection (Table α) := ⟨empty⟩

instance : Inhabited (Table α) := ⟨empty⟩

/-- The value under a key. -/
def get? (t : Table α) (key : Int) : Option α := find key t.rows

/-- Replaces the value under a key by what `write` makes of it. -/
def alter (t : Table α) (key : Int) (write : Option α → α) : Table α :=
  ⟨put key write t.rows, nodup_keys_put t.distinct⟩

/-- Files a value under a key, in place of any earlier one. -/
def insert (t : Table α) (key : Int) (value : α) : Table α := t.alter key fun _ => value

/-- Files a value under a key that has none yet. -/
def insertIfNew (t : Table α) (key : Int) (value : α) : Table α := t.alter key (·.getD value)

/-- The keys, in the order of their first use. -/
def keys (t : Table α) : List Int := t.rows.map Prod.fst

/-- The values, in the order of their keys' first use. -/
def values (t : Table α) : List α := t.rows.map Prod.snd

/-- The number of keys. -/
def size (t : Table α) : Nat := t.rows.length

/-- The rows by ascending key. -/
def sorted (t : Table α) : List (Int × α) := t.rows.mergeSort fun a b => a.1 ≤ b.1

/-- The table that files each pair of a list in turn, a later one under the
same key replacing an earlier one. -/
def ofList (pairs : List (Int × α)) : Table α :=
  pairs.foldl (fun t pair => t.insert pair.1 pair.2) empty

@[simp] theorem get?_empty (key : Int) : (empty : Table α).get? key = none := rfl

/-- **A write is seen under its own key and nowhere else.** -/
theorem get?_alter (t : Table α) (key k : Int) (write : Option α → α) :
    (t.alter key write).get? k = if k = key then some (write (t.get? key)) else t.get? k :=
  find_put

@[simp] theorem get?_insert_self (t : Table α) (key : Int) (value : α) :
    (t.insert key value).get? key = some value := by
  simp [insert, get?_alter]

theorem get?_insert_of_ne {t : Table α} {key k : Int} {value : α} (h : k ≠ key) :
    (t.insert key value).get? k = t.get? k := by
  simp [insert, get?_alter, h]

/-- The keys of a table are listed once each. -/
theorem nodup_keys (t : Table α) : t.keys.Nodup := t.distinct

end Table

end EventTrace
