import EventTrace.Json
import EventTrace.Table
/-!
# Json — libraries for stored data

How numbers, texts, lists and records are written as JSON and read from it is
the business of a library (`Library`); what a record stores, under which names
and with which defaults, is declared to it (`Declaration`, `Choice`). A record
is read from an object one field after another: the library keeps what it has
read so far in a state of its own (`Visitor`) and makes the record of it at the
end.
-/

namespace EventTrace

/-- How the values of a type are written as JSON and read from it. -/
structure Codec (α : Type) where
  write : α → Json
  read? : Json → Option α

/-! ## Declarations -/

/-- A name of words that start with capitals, in small letters and with an
underscore before each further word. -/
def snake (s : String) : String :=
  match s.toList with
  | [] => ""
  | c :: rest => String.ofList
      (c.toLower :: rest.flatMap fun c => if c.isUpper then ['_', c.toLower] else [c.toLower])

/-- A choice as declared: its variants and their titles, to be stored under
their names in small letters. -/
structure Choice (α : Type) where
  variants : List α
  title : α → String
  mem_variants : ∀ a, a ∈ variants
  snake_injective : ∀ a b, snake (title a) = snake (title b) → a = b

/-- The name a variant is stored under. -/
def Choice.name {α : Type} (C : Choice α) (a : α) : String := snake (C.title a)

/-- A record as declared: its stored fields in order, each with its name and
with the way its values are stored, and the record that stands in for fields
that are absent, if they may be. A record made of values for its stored fields
has the defaults in all that is not stored. -/
structure Declaration (R : Type) where
  Field : Type
  Value : Field → Type
  fields : List Field
  name : Field → String
  codec : (f : Field) → Codec (Value f)
  get : R → (f : Field) → Value f
  build : ((f : Field) → Value f) → R
  absent : Option R
  decEq : DecidableEq Field
  mem_fields : ∀ f, f ∈ fields
  nodup_fields : fields.Nodup
  name_injective : ∀ f g, name f = name g → f = g
  get_build : ∀ v f, get (build v) f = v f

namespace Declaration

variable {R : Type}

instance (D : Declaration R) : DecidableEq D.Field := D.decEq

/-- The names of the stored fields, in order. -/
def names (D : Declaration R) : List String := D.fields.map D.name

/-- The fields a record is stored in. -/
def stored (D : Declaration R) (r : R) : List (String × Json) :=
  D.fields.map fun f => (D.name f, (D.codec f).write (D.get r f))

end Declaration

/-! ## Libraries -/

/-- How a library reads a record field by field: where it starts, what it makes
of one more field, and what record it ends with. At each time it has a value or
none in the slot of a field. -/
structure Visitor {R : Type} (D : Declaration R) where
  State : Type
  start : State
  visit : State → String → Json → Option State
  finish : State → Option R
  slot : State → (f : D.Field) → Option (D.Value f)

/-- The state after some fields, if each of them could be read. -/
def Visitor.visitAll {R : Type} {D : Declaration R} (V : Visitor D) (s : V.State)
    (fields : List (String × Json)) : Option V.State :=
  fields.foldlM (fun s field => V.visit s field.1 field.2) s

/-- What is used of a library for stored data: words of so many bits, texts,
lists, choices, values filed under words, and records; the text of a JSON value,
and what a text is read as. -/
structure Library where
  unsigned : Nat → Codec Nat
  signed : Nat → Codec Int
  text : Codec String
  list : {α : Type} → Codec α → Codec (List α)
  choice : {α : Type} → Choice α → Codec α
  keyed : {α : Type} → Nat → Codec α → Codec (Table α)
  record : {R : Type} → Declaration R → Codec R
  visitor : {R : Type} → (D : Declaration R) → Visitor D
  print : Json → String
  decode? : {α : Type} → Codec α → String → Option α

end EventTrace
