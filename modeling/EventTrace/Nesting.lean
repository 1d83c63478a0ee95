import EventTrace.Event.Basic
/-!
# Nesting — which scope an end closes

Scopes are meant to nest, but nothing makes them. An end is matched against
the frames open on its thread, the innermost first, and three kinds of
damage are counted: an end with nothing open (unmatched end), an end whose id
is not the innermost open one (mismatched end), and a scope that is never
closed (unmatched begin). At a mismatch, strict matching drops the end;
otherwise the end closes the nearest open frame of its id, if there is one,
and the frames above it are abandoned and count as unmatched begins.
-/

namespace EventTrace

/-! ## Counts -/

/-- Damage to the nesting, by kind. -/
structure Anomalies where
  unmatchedBegin : Nat := 0
  unmatchedEnd : Nat := 0
  mismatchedEnd : Nat := 0
  /-- Ends that come less than no time after the begin they match. -/
  invalidDurations : Nat := 0
deriving DecidableEq, Repr, Inhabited

namespace Anomalies

instance : Add Anomalies where
  add a b := ⟨a.unmatchedBegin + b.unmatchedBegin, a.unmatchedEnd + b.unmatchedEnd,
    a.mismatchedEnd + b.mismatchedEnd, a.invalidDurations + b.invalidDurations⟩

/-- Whether the nesting is undamaged. -/
def isClean (a : Anomalies) : Bool := a == {}

theorem add_assoc (a b c : Anomalies) : a + b + c = a + (b + c) := by
  simp only [HAdd.hAdd, Add.add, mk.injEq]
  exact ⟨Nat.add_assoc .., Nat.add_assoc .., Nat.add_assoc .., Nat.add_assoc ..⟩

theorem add_comm (a b : Anomalies) : a + b = b + a := by
  simp only [HAdd.hAdd, Add.add, mk.injEq]
  exact ⟨Nat.add_comm .., Nat.add_comm .., Nat.add_comm .., Nat.add_comm ..⟩

end Anomalies

/-- An end whose id is not that of the innermost open scope. -/
structure Mismatch where
  thread : Int
  /-- The id of the innermost open scope. -/
  expected : Int
  /-- The id of the end. -/
  actual : Int
  timestamp : Int
deriving DecidableEq, Repr, Inhabited

/-! ## Frames -/

/-- An open scope, with what a pass keeps for it. -/
structure Frame (α : Type) where
  id : Int
  start : Int
  data : α
deriving DecidableEq, Repr

/-- A frame found for an end. -/
structure Match (α : Type) where
  frame : Frame α
  /-- The frames above it, the outermost first. -/
  abandoned : List (Frame α)
  /-- The frames below it, the innermost first. -/
  below : List (Frame α)
deriving DecidableEq, Repr

/-- What an end does to the frames of its thread. -/
structure Closing (α : Type) where
  /-- The frame it closes, if it closes one. -/
  matched : Option (Match α)
  anomalies : Anomalies
  /-- At a mismatch, the id of the innermost open scope. -/
  expected : Option Int
deriving DecidableEq, Repr

namespace Nesting

variable {α : Type}

/-- The nearest frame of an id, among frames with the innermost first. -/
def nearest? (id : Int) : List (Frame α) → Option (Match α)
  | [] => none
  | top :: below =>
    if top.id = id then some ⟨top, [], below⟩
    else (nearest? id below).map fun m => { m with abandoned := m.abandoned ++ [top] }

/-- Matches an end of some id against the frames open on its thread, the
innermost first. -/
def close (strict : Bool) (id : Int) : List (Frame α) → Closing α
  | [] => ⟨none, { unmatchedEnd := 1 }, none⟩
  | top :: below =>
    if top.id = id then ⟨some ⟨top, [], below⟩, {}, none⟩
    else if strict then ⟨none, { mismatchedEnd := 1 }, some top.id⟩
    else match nearest? id below with
      | none => ⟨none, { mismatchedEnd := 1, unmatchedEnd := 1 }, some top.id⟩
      | some m =>
        ⟨some { m with abandoned := m.abandoned ++ [top] },
          { mismatchedEnd := 1, unmatchedBegin := m.abandoned.length + 1 }, some top.id⟩

/-- What the frames still open when a stream ends count as. -/
def leftOpen (frames : List (Frame α)) : Anomalies := { unmatchedBegin := frames.length }

/-- A match takes the frames apart and loses none of them. -/
theorem eq_of_nearest? {id : Int} {frames : List (Frame α)} {m : Match α}
    (h : nearest? id frames = some m) :
    frames = m.abandoned.reverse ++ m.frame :: m.below ∧ m.frame.id = id := by
  induction frames generalizing m with
  | nil => simp [nearest?] at h
  | cons top below ih =>
    by_cases ht : top.id = id
    · simp only [nearest?, ht, if_true, Option.some.injEq] at h
      subst h
      exact ⟨rfl, ht⟩
    · simp only [nearest?, ht, if_false, Option.map_eq_some_iff] at h
      obtain ⟨m', hm', rfl⟩ := h
      obtain ⟨hb, hid⟩ := ih hm'
      exact ⟨by simpa using hb, hid⟩

end Nesting

end EventTrace
