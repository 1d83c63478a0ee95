import EventTrace.Recording.Merge
import Mathlib.Data.List.Perm.Basic
import Mathlib.Data.Prod.Lex
import Mathlib.Order.Basic
/-!
# Keys — the order of keys and of cursors

Keys and cursors are compared field by field; here the comparisons become
the linear orders of lexicographic tuples, and the least cursor of a queue
becomes the least.
-/

namespace EventTrace

/-! ## Keys -/

namespace Key

/-- A key as a tuple. -/
def tuple (k : Key) : Int ×ₗ Nat ×ₗ Int ×ₗ Int :=
  toLex (k.timestamp, toLex (k.rank, toLex (k.thread, k.sequence)))

theorem tuple_injective : Function.Injective tuple := by
  rintro ⟨t, r, i, s⟩ ⟨t', r', i', s'⟩ h
  simpa only [tuple, toLex_inj, Prod.mk.injEq, Key.mk.injEq] using h

instance : LinearOrder Key := LinearOrder.liftWithOrd' tuple tuple_injective fun _ _ => rfl

/-- One key is at most another iff the first field in which they differ is. -/
theorem le_iff {a b : Key} : a ≤ b ↔ a.timestamp < b.timestamp ∨ a.timestamp = b.timestamp ∧
    (a.rank < b.rank ∨ a.rank = b.rank ∧
      (a.thread < b.thread ∨ a.thread = b.thread ∧ a.sequence ≤ b.sequence)) := by
  show tuple a ≤ tuple b ↔ _
  simp only [tuple, Prod.Lex.toLex_le_toLex]

/-- Keys in order have timestamps in order. -/
theorem timestamp_le {a b : Key} (h : a ≤ b) : a.timestamp ≤ b.timestamp := by
  rcases le_iff.mp h with h | ⟨h, -⟩ <;> omega

end Key

/-! ## Cursors -/

namespace Cursor

/-- A cursor as a tuple. -/
def tuple (c : Cursor) : Key ×ₗ Nat ×ₗ Nat := toLex (c.key, toLex (c.chunk, c.index))

theorem tuple_injective : Function.Injective tuple := by
  rintro ⟨k, i, j⟩ ⟨k', i', j'⟩ h
  simpa only [tuple, toLex_inj, Prod.mk.injEq, Cursor.mk.injEq] using h

instance : LinearOrder Cursor := LinearOrder.liftWithOrd' tuple tuple_injective fun _ _ => rfl

theorem before_iff {a b : Cursor} : a.before b = true ↔ a < b := by
  rw [before, beq_iff_eq, compare_lt_iff_lt]

/-- A cursor at most another has the lesser key, or as great a key and a
chunk no further to the back. -/
theorem key_le {a b : Cursor} (h : a ≤ b) : a.key < b.key ∨ a.key = b.key ∧ a.chunk ≤ b.chunk := by
  have h : tuple a ≤ tuple b := h
  simp only [tuple, Prod.Lex.toLex_le_toLex] at h
  exact h.imp_right fun h => ⟨h.1, h.2.elim le_of_lt fun h => le_of_eq h.1⟩

/-- Only an empty queue has no least cursor. -/
theorem takeLeast_eq_none {queue : List Cursor} : takeLeast queue = none ↔ queue = [] := by
  cases queue with
  | nil => exact iff_of_true rfl rfl
  | cons c queue =>
    refine iff_of_false ?_ (List.cons_ne_nil c queue)
    rw [takeLeast]
    split
    · exact Option.some_ne_none _
    · split <;> exact Option.some_ne_none _

/-- **The least cursor is at most every other**, and with the others it makes
up the queue. -/
theorem takeLeast_spec {queue others : List Cursor} {c : Cursor}
    (h : takeLeast queue = some (c, others)) :
    queue.Perm (c :: others) ∧ ∀ d ∈ others, c ≤ d := by
  induction queue generalizing c others with
  | nil => cases h
  | cons first queue ih =>
    rw [takeLeast] at h
    split at h
    · next hnone =>
      cases h
      rw [takeLeast_eq_none.mp hnone]
      exact ⟨.refl _, fun _ hd => absurd hd List.not_mem_nil⟩
    · next least rest hleast =>
      obtain ⟨hperm, hle⟩ := ih hleast
      split at h
      · next hbefore =>
        cases h
        refine ⟨(hperm.cons first).trans (.swap ..), fun d hd => ?_⟩
        rcases List.mem_cons.mp hd with rfl | hd
        · exact le_of_lt (before_iff.mp hbefore)
        · exact hle d hd
      · next hbefore =>
        cases h
        have hfirst : first ≤ least := not_lt.mp fun hlt => hbefore (before_iff.mpr hlt)
        refine ⟨.refl _, fun d hd => ?_⟩
        rcases List.mem_cons.mp (hperm.mem_iff.mp hd) with rfl | hd
        · exact hfirst
        · exact hfirst.trans (hle d hd)

end Cursor

end EventTrace
