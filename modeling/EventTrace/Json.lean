/-!
# Json — the value form of stored data

Options and events are stored as JSON. This is the value form only: whole
numbers are kept apart from numbers with a fraction or an exponent, since a
count is never read from the latter, and an object keeps its fields in the
order written. A record has two stored forms, by name and by place
(`record?`), and so has a choice among names (`choice?`).
-/

namespace EventTrace

/-- A JSON value. -/
inductive Json where
  | null
  | bool (value : Bool)
  /-- A number written with digits only. -/
  | integer (value : Int)
  /-- A number written with a fraction or an exponent. -/
  | decimal (value : Float)
  | string (text : String)
  | array (items : List Json)
  | object (fields : List (String × Json))
deriving Inhabited

namespace Json

/-- The fields of an object. -/
def fields? : Json → Option (List (String × Json))
  | object fields => some fields
  | _ => none

/-- The items of an array. -/
def items? : Json → Option (List Json)
  | array items => some items
  | _ => none

/-- The text of a string. -/
def text? : Json → Option String
  | string text => some text
  | _ => none

/-- The value of a whole number. -/
def integer? : Json → Option Int
  | integer value => some value
  | _ => none

/-- The value of a whole number between two bounds, both allowed. -/
def integerIn? (low high : Int) (j : Json) : Option Int :=
  j.integer?.filter fun n => low ≤ n ∧ n ≤ high

/-- How many values a word of so many bits has. -/
def wordSize (bits : Nat) : Nat := Nat.pow 2 bits

/-- Whether a signed word of so many bits holds a whole number. -/
def InWord (bits : Nat) (n : Int) : Prop :=
  -wordSize (bits - 1) ≤ n ∧ n < wordSize (bits - 1)

instance (bits : Nat) (n : Int) : Decidable (InWord bits n) :=
  inferInstanceAs (Decidable (_ ∧ _))

/-- The value of a whole number that a word of `bits` bits holds. -/
def unsigned? (bits : Nat) (j : Json) : Option Nat :=
  (j.integerIn? 0 (wordSize bits - 1)).map Int.toNat

/-- The value of a whole number that a signed word of `bits` bits holds. -/
def signed? (bits : Nat) (j : Json) : Option Int :=
  j.integerIn? (-wordSize (bits - 1)) (wordSize (bits - 1) - 1)

/-- The fields of a record: those of an object, or the items of an array in
the order of the record's names, of which there must be enough. -/
def record? (names : List String) : Json → Option (List (String × Json))
  | object fields => some fields
  | array items => if items.length ≤ names.length then some (names.zip items) else none
  | _ => none

/-- The name of a choice: a string, or an object whose only field has that
name and is null, since a choice has no contents. -/
def choice? : Json → Option String
  | string name => some name
  | object [(name, null)] => some name
  | _ => none

end Json

/-- The value of a field, the last one written if a name is written twice. -/
def fieldOf? (name : String) (fields : List (String × Json)) : Option Json :=
  (fields.reverse.find? (·.1 == name)).map Prod.snd

end EventTrace
