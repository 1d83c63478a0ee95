import EventTrace.Depot.Freezing
import Mathlib.Algebra.Order.Ring.Int
import Mathlib.Data.List.Nodup
import Mathlib.Tactic.Common
/-!
# Depot — counting references

Every reference to a chunk stands in one place: the free list, a ledger, a
rental, a share or a writer. This file counts the places of each sort and
says what a change of one place does to the count. Nothing here depends on
what the depot is used for; `references_eq` is the sum that a chunk's return
is decided by.
-/

namespace EventTrace

namespace Depot

/-! ## Sums over places -/

section Places

variable {α : Type}

/-- Changing one place changes a sum by that place alone. -/
theorem sum_map_modify {g : α → Nat} {f : α → α} {l : List α} {i : Nat} {a : α}
    (h : l[i]? = some a) : ((l.modify i f).map g).sum + g a = (l.map g).sum + g (f a) := by
  induction l generalizing i with
  | nil => simp at h
  | cons b l ih =>
    cases i with
    | zero =>
      obtain rfl : b = a := by simpa using h
      simp only [List.modify_zero_cons, List.map_cons, List.sum_cons]
      omega
    | succ i =>
      have := ih (i := i) (by simpa using h)
      simp only [List.modify_succ_cons, List.map_cons, List.sum_cons]
      omega

/-- A place counts no more than the sum. -/
theorem le_sum_map {g : α → Nat} {l : List α} {i : Nat} {a : α} (h : l[i]? = some a) :
    g a ≤ (l.map g).sum := by
  induction l generalizing i with
  | nil => simp at h
  | cons b l ih =>
    simp only [List.map_cons, List.sum_cons]
    cases i with
    | zero =>
      obtain rfl : b = a := by simpa using h
      omega
    | succ i =>
      have := ih (i := i) (by simpa using h)
      omega

/-- Two places count no more than the sum. -/
theorem add_le_sum_map {g : α → Nat} {l : List α} {i j : Nat} {a b : α} (hij : i ≠ j)
    (hi : l[i]? = some a) (hj : l[j]? = some b) : g a + g b ≤ (l.map g).sum := by
  induction l generalizing i j with
  | nil => simp at hi
  | cons c l ih =>
    simp only [List.map_cons, List.sum_cons]
    cases i with
    | zero =>
      obtain rfl : c = a := by simpa using hi
      obtain ⟨j, rfl⟩ := Nat.exists_eq_succ_of_ne_zero (Ne.symm hij)
      have := le_sum_map (g := g) (i := j) (by simpa using hj)
      omega
    | succ i =>
      cases j with
      | zero =>
        obtain rfl : c = b := by simpa using hj
        have := le_sum_map (g := g) (i := i) (by simpa using hi)
        omega
      | succ j =>
        have := ih (i := i) (j := j) (by omega) (by simpa using hi) (by simpa using hj)
        omega

/-- Counting is summing ones. -/
theorem countP_eq_sum (p : α → Bool) (xs : Array α) :
    xs.countP p = (xs.toList.map fun a => (p a).toNat).sum := by
  rw [← Array.countP_toList]
  induction xs.toList with
  | nil => rfl
  | cons a l ih =>
    rw [List.countP_cons, ih, List.map_cons, List.sum_cons]
    cases p a <;> simp [Nat.add_comm]

theorem countP_modify {p : α → Bool} {f : α → α} {xs : Array α} {i : Nat} {a : α}
    (h : xs[i]? = some a) :
    (xs.modify i f).countP p + (p a).toNat = xs.countP p + (p (f a)).toNat := by
  rw [countP_eq_sum, countP_eq_sum, Array.toList_modify]
  exact sum_map_modify (g := fun a => (p a).toNat) (by simpa using h)

theorem le_countP {p : α → Bool} {xs : Array α} {i : Nat} {a : α} (h : xs[i]? = some a) :
    (p a).toNat ≤ xs.countP p := by
  rw [countP_eq_sum]
  exact le_sum_map (g := fun a => (p a).toNat) (by simpa using h)

theorem add_le_countP {p : α → Bool} {xs : Array α} {i j : Nat} {a b : α} (hij : i ≠ j)
    (hi : xs[i]? = some a) (hj : xs[j]? = some b) :
    (p a).toNat + (p b).toNat ≤ xs.countP p := by
  rw [countP_eq_sum]
  exact add_le_sum_map (g := fun a => (p a).toNat) hij (by simpa using hi) (by simpa using hj)

/-- A place that is not there is not changed. -/
theorem modify_of_none {f : α → α} {xs : Array α} {i : Nat} (h : xs[i]? = none) :
    xs.modify i f = xs := by
  rw [← Array.toList_inj, Array.toList_modify]
  exact List.modify_eq_self (by simpa using h)

/-- A change that one view does not show leaves that view of all places. -/
theorem map_modify_of_eq {β : Type} {g : α → β} {f : α → α} (hf : ∀ a, g (f a) = g a)
    (xs : Array α) (i : Nat) : (xs.modify i f).map g = xs.map g := by
  apply Array.ext_getElem?
  intro j
  rw [Array.getElem?_map, Array.getElem?_map, Array.getElem?_modify]
  split
  · cases xs[j]? <;> simp [hf]
  · rfl

end Places

/-! ## Looking up after a change -/

variable {d : Depot} {c x : ChunkId} {k j : CollectorId} {w v : WriterId}

theorem collector_modifyCollector {f : Collector → Collector} (hk : k < d.collectors.size) :
    (d.modifyCollector k f).collector k = f (d.collector k) := by
  simp [modifyCollector, collector, Array.getElem_modify_self, hk]

theorem collector_modifyCollector_of_ne {f : Collector → Collector} (h : j ≠ k) :
    (d.modifyCollector k f).collector j = d.collector j := by
  simp [modifyCollector, collector, Array.getElem?_modify, h.symm]

theorem modifyCollector_of_ge {f : Collector → Collector} (h : d.collectors.size ≤ k) :
    d.modifyCollector k f = d := by
  unfold modifyCollector
  rw [modify_of_none (by simpa using h)]

/-- A collector is as it was, or as the change makes it. -/
theorem collector_modifyCollector_cases (d : Depot) (k j : CollectorId)
    (f : Collector → Collector) : (d.modifyCollector k f).collector j = d.collector j ∨
      (d.modifyCollector k f).collector j = f (d.collector j) := by
  rcases Nat.lt_or_ge k d.collectors.size with hk | hk
  · by_cases hj : j = k
    · subst hj
      exact .inr (collector_modifyCollector hk)
    · exact .inl (collector_modifyCollector_of_ne hj)
  · rw [modifyCollector_of_ge hk]
    exact .inl rfl

/-- What a change of a collector leaves alone is the same in all of them. -/
theorem congr_modifyCollector {α : Type} (g : Collector → α) {f : Collector → Collector}
    (hf : ∀ s, g (f s) = g s) (j : CollectorId) :
    g ((d.modifyCollector k f).collector j) = g (d.collector j) := by
  rcases collector_modifyCollector_cases d k j f with hsame | hchanged
  · rw [hsame]
  · rw [hchanged, hf]

theorem collector_of_ge (h : d.collectors.size ≤ k) : d.collector k = default := by
  simp [collector, h]

theorem collector_newCollector (d : Depot) (o : Options) :
    (d.newCollector o).2.collector d.collectors.size = { options := o } := by
  simp [collector, newCollector]

theorem collector_newCollector_of_ne (h : k ≠ d.collectors.size) (o : Options) :
    (d.newCollector o).2.collector k = d.collector k := by
  simp [collector, newCollector, Array.getElem?_push, h]

/-- What a new session has as if it were not there is the same in all of
them. -/
theorem congr_newCollector {α : Type} (g : Collector → α) (o : Options)
    (hg : g { options := o } = g default) (k : CollectorId) :
    g ((d.newCollector o).2.collector k) = g (d.collector k) := by
  by_cases hk : k = d.collectors.size
  · rw [hk, collector_newCollector, hg, collector_of_ge (Nat.le_refl _)]
  · rw [collector_newCollector_of_ne hk]

theorem getElem?_collectors (hk : k < d.collectors.size) :
    d.collectors[k]? = some (d.collector k) := by
  simp [collector, hk]

theorem chunk_modifyChunk {f : Chunk → Chunk} (hc : c < d.chunks.size) :
    (d.modifyChunk c f).chunk c = f (d.chunk c) := by
  simp [modifyChunk, chunk, Array.getElem_modify_self, hc]

theorem chunk_modifyChunk_of_ne {f : Chunk → Chunk} (h : x ≠ c) :
    (d.modifyChunk c f).chunk x = d.chunk x := by
  simp [modifyChunk, chunk, Array.getElem?_modify, h.symm]

theorem writer?_modifyWriter (f : Writer → Writer) :
    (d.modifyWriter w f).writer? w = (d.writer? w).map f := by
  simp only [writer?, modifyWriter, Array.getElem?_modify, if_true]
  cases d.writers[w]? <;> rfl

theorem writer?_modifyWriter_of_ne {f : Writer → Writer} (h : v ≠ w) :
    (d.modifyWriter w f).writer? v = d.writer? v := by
  simp [writer?, modifyWriter, Array.getElem?_modify, h.symm]

theorem getElem?_of_writer? {s : Writer} (h : d.writer? w = some s) :
    d.writers[w]? = some (some s) := by
  simpa [writer?, Option.join_eq_some_iff] using h

/-! ## The sorts of reference -/

/-- The ledger entries of a chunk. -/
def ledgered (d : Depot) (c : ChunkId) : Nat :=
  (d.collectors.toList.map fun k => k.ledger.countP (·.chunk == c)).sum

/-- The writers that fill a chunk. -/
def filling (d : Depot) (c : ChunkId) : Nat :=
  d.writers.countP fun w => w.any (·.chunk == some c)

/-- How many can write to a chunk: rentals and writers. -/
def writable (d : Depot) (c : ChunkId) : Nat := heldIn d.rentals c + d.filling c

theorem entriesOf_eq (c : ChunkId) (collectors : List Collector) :
    entriesOf c collectors = (collectors.map fun k => k.ledger.countP (·.chunk == c)).sum := by
  induction collectors with
  | nil => rfl
  | cons k rest ih => rw [entriesOf, ih, List.map_cons, List.sum_cons]

theorem references_eq (d : Depot) (c : ChunkId) :
    d.references c = d.free.count c + d.ledgered c + d.writable c + heldIn d.shares c := by
  unfold references writable ledgered filling
  rw [entriesOf_eq]
  omega

/-- What the free list does to the sum. -/
theorem references_withFree (d : Depot) (l : List ChunkId) (c : ChunkId) :
    references { d with free := l } c =
      l.count c + d.ledgered c + d.writable c + heldIn d.shares c := references_eq _ c

/-- Freeness is one reference. -/
theorem count_free_pos (h : c ∈ d.free) : 1 ≤ d.free.count c := List.one_le_count_iff.mpr h

/-! ### Ledgers -/

theorem ledgered_modifyCollector {f : Collector → Collector} (hk : k < d.collectors.size) :
    (d.modifyCollector k f).ledgered c + (d.collector k).ledger.countP (·.chunk == c) =
      d.ledgered c + (f (d.collector k)).ledger.countP (·.chunk == c) := by
  unfold ledgered modifyCollector
  rw [Array.toList_modify]
  exact sum_map_modify (g := fun s : Collector => s.ledger.countP (·.chunk == c))
    (l := d.collectors.toList) (by simpa using getElem?_collectors hk)

theorem countP_le_ledgered (k : CollectorId) :
    (d.collector k).ledger.countP (·.chunk == c) ≤ d.ledgered c := by
  rcases Nat.lt_or_ge k d.collectors.size with hk | hk
  · exact le_sum_map (g := fun s : Collector => s.ledger.countP (·.chunk == c))
      (l := d.collectors.toList) (by simpa using getElem?_collectors hk)
  · rw [collector_of_ge hk]
    exact Nat.zero_le _

/-- The chunks in a session's ledger. -/
def Ledgers (d : Depot) (k : CollectorId) (c : ChunkId) : Prop :=
  ∃ entry ∈ (d.collector k).ledger, entry.chunk = c

instance : Decidable (d.Ledgers k c) :=
  inferInstanceAs (Decidable (∃ entry ∈ (d.collector k).ledger, entry.chunk = c))

theorem ledgers_iff_countP_pos :
    d.Ledgers k c ↔ 0 < (d.collector k).ledger.countP (·.chunk == c) := by
  simp [Ledgers, List.countP_pos_iff]

theorem ledgered_pos (h : d.Ledgers k c) : 1 ≤ d.ledgered c :=
  Nat.le_trans (ledgers_iff_countP_pos.mp h) (countP_le_ledgered k)

/-- A chunk that is entered is in some ledger. -/
theorem exists_ledgers (h : 0 < d.ledgered c) : ∃ k, d.Ledgers k c := by
  obtain ⟨n, hn, hpos⟩ := List.sum_pos_iff_exists_pos_nat.mp h
  obtain ⟨s, hs, rfl⟩ := List.mem_map.mp hn
  obtain ⟨k, hk⟩ := List.getElem?_of_mem hs
  have hcollector : d.collector k = s := by
    rw [Array.getElem?_toList] at hk
    rw [collector, hk, Option.getD_some]
  exact ⟨k, ledgers_iff_countP_pos.mpr (hcollector ▸ hpos)⟩

theorem ledgers_of_mem {entry : LedgerEntry} (h : entry ∈ (d.collector k).ledger) :
    d.Ledgers k entry.chunk := ⟨entry, h, rfl⟩

theorem lt_size_of_ledgers (h : d.Ledgers k c) : k < d.collectors.size := by
  rcases Nat.lt_or_ge k d.collectors.size with hk | hk
  · exact hk
  · obtain ⟨entry, hmem, -⟩ := h
    rw [collector_of_ge hk] at hmem
    exact absurd hmem List.not_mem_nil

/-- A chunk entered once is in one ledger. -/
theorem ledgers_unique (hone : d.ledgered c ≤ 1) (hk : d.Ledgers k c) (hj : d.Ledgers j c) :
    k = j := by
  by_contra hne
  have := add_le_sum_map (g := fun s : Collector => s.ledger.countP (·.chunk == c)) hne
    (l := d.collectors.toList) (by simpa using getElem?_collectors (lt_size_of_ledgers hk))
    (by simpa using getElem?_collectors (lt_size_of_ledgers hj))
  have h1 := ledgers_iff_countP_pos.mp hk
  have h2 := ledgers_iff_countP_pos.mp hj
  unfold ledgered at hone
  omega

/-- A chunk entered once has one entry. -/
theorem nodup_ledger (h : ∀ c, d.ledgered c ≤ 1) (k : CollectorId) :
    ((d.collector k).ledger.map LedgerEntry.chunk).Nodup := by
  rw [List.nodup_iff_count_le_one]
  intro c
  rw [List.count, List.countP_map]
  exact Nat.le_trans (countP_le_ledgered k) (h c)

/-! ### Writers, rentals and shares -/

theorem filling_modifyWriter {f : Writer → Writer} {s : Writer} (h : d.writer? w = some s) :
    (d.modifyWriter w f).filling c + (s.chunk == some c).toNat =
      d.filling c + ((f s).chunk == some c).toNat := by
  have := countP_modify (p := fun w : Option Writer => w.any (·.chunk == some c))
    (f := fun s => s.map f) (getElem?_of_writer? h)
  simpa [filling, modifyWriter] using this

/-- A dropped writer is not changed. -/
theorem filling_modifyWriter_of_none {f : Writer → Writer} (h : d.writer? w = none) :
    (d.modifyWriter w f).filling c = d.filling c := by
  simp only [filling, modifyWriter]
  cases hw : d.writers[w]? with
  | none => rw [modify_of_none hw]
  | some s =>
    have hs : s = none := by simpa [writer?, hw] using h
    have := countP_modify (p := fun w : Option Writer => w.any (·.chunk == some c))
      (f := fun s => s.map f) hw
    rw [hs] at this
    simpa using this

theorem filling_modifyWriter_of_eq {f : Writer → Writer} (hf : ∀ s, (f s).chunk = s.chunk) :
    (d.modifyWriter w f).filling c = d.filling c := by
  simp only [filling, modifyWriter]
  cases h : d.writers[w]? with
  | none => rw [modify_of_none h]
  | some s =>
    have := countP_modify (p := fun w : Option Writer => w.any (·.chunk == some c))
      (f := fun s => s.map f) h
    have hsame : ((s.map f).any (·.chunk == some c)) = s.any (·.chunk == some c) := by
      cases s <;> simp [hf]
    rw [hsame] at this
    omega

theorem filling_pos {s : Writer} (h : d.writer? w = some s) (hc : s.chunk = some c) :
    1 ≤ d.filling c := by
  have := le_countP (p := fun w : Option Writer => w.any (·.chunk == some c))
    (getElem?_of_writer? h)
  simpa [hc, filling] using this

/-- A chunk that is filled is filled by some writer. -/
theorem exists_writer?_of_filling (h : 0 < d.filling c) :
    ∃ w s, d.writer? w = some s ∧ s.chunk = some c := by
  obtain ⟨o, ho, hc⟩ := Array.countP_pos_iff.mp h
  obtain ⟨w, hw⟩ := Array.mem_iff_getElem?.mp ho
  obtain ⟨s, rfl, hs⟩ := (Option.any_eq_true _ _).mp hc
  exact ⟨w, s, by rw [writer?, hw]; rfl, by simpa using hs⟩

/-- A chunk filled once is filled by one writer. -/
theorem writer_unique {s t : Writer} (hone : d.filling c ≤ 1) (hw : d.writer? w = some s)
    (hs : s.chunk = some c) (hv : d.writer? v = some t) (ht : t.chunk = some c) : w = v := by
  by_contra hne
  have := add_le_countP (p := fun w : Option Writer => w.any (·.chunk == some c)) hne
    (getElem?_of_writer? hw) (getElem?_of_writer? hv)
  simp only [Option.any_some, hs, ht, beq_self_eq_true, Bool.toNat_true] at this
  unfold filling at hone
  omega

theorem heldIn_push (holdings : Array Holding) (x c : ChunkId) :
    heldIn (holdings.push { chunk := x }) c = heldIn holdings c + (x == c).toNat := by
  unfold heldIn
  rw [Array.countP_push]
  cases x == c <;> simp

/-- Giving back lets one reference go, and no other. -/
theorem heldIn_drop {holdings : Array Holding} {r : Nat} {h : Holding}
    (hr : holdings[r]? = some h) :
    heldIn (holdings.modify r fun h => { h with held := false }) c +
      (h.held && h.chunk == c).toNat = heldIn holdings c := by
  have := countP_modify (p := fun h : Holding => h.held && h.chunk == c)
    (f := fun h => { h with held := false }) hr
  simpa [heldIn] using this

theorem heldIn_drop_le (holdings : Array Holding) (r : Nat) :
    heldIn (holdings.modify r fun h => { h with held := false }) c ≤ heldIn holdings c := by
  cases hr : holdings[r]? with
  | none => exact Nat.le_of_eq (by rw [modify_of_none hr])
  | some h =>
    have := heldIn_drop (c := c) hr
    omega

theorem heldIn_pos {holdings : Array Holding} {r : Nat} {h : Holding}
    (hr : holdings[r]? = some h) (hheld : h.held = true) : 1 ≤ heldIn holdings h.chunk := by
  have := le_countP (p := fun x : Holding => x.held && x.chunk == h.chunk) hr
  simpa [heldIn, hheld] using this

/-- A chunk held once is held in one place. -/
theorem holding_unique {holdings : Array Holding} {r q : Nat} {h i : Holding}
    (hone : heldIn holdings c ≤ 1) (hr : holdings[r]? = some h) (hh : h.held = true)
    (hc : h.chunk = c) (hq : holdings[q]? = some i) (hi : i.held = true) (hic : i.chunk = c) :
    r = q := by
  by_contra hne
  have := add_le_countP (p := fun x : Holding => x.held && x.chunk == c) hne hr hq
  simp only [hh, hi, hc, hic, Bool.true_and, beq_self_eq_true, Bool.toNat_true] at this
  unfold heldIn at hone
  omega

theorem rental?_eq_some {r : RentalId} :
    d.rental? r = some c ↔ ∃ h, d.rentals[r]? = some h ∧ h.held = true ∧ h.chunk = c := by
  simp [rental?, Option.bind_eq_some_iff]

theorem share?_eq_some {s : ShareId} :
    d.share? s = some c ↔ ∃ h, d.shares[s]? = some h ∧ h.held = true ∧ h.chunk = c := by
  simp [share?, Option.bind_eq_some_iff]

theorem heldIn_of_rental? {r : RentalId} (hr : d.rental? r = some c) :
    1 ≤ heldIn d.rentals c := by
  obtain ⟨i, hi, hheld, rfl⟩ := rental?_eq_some.mp hr
  exact heldIn_pos hi hheld

theorem heldIn_of_share? {q : ShareId} (hq : d.share? q = some c) : 1 ≤ heldIn d.shares c := by
  obtain ⟨i, hi, hheld, rfl⟩ := share?_eq_some.mp hq
  exact heldIn_pos hi hheld

end Depot

end EventTrace
