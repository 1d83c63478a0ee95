import EventTrace.Json.Library
import EventTrace.Json.Reader
import EventTrace.Json.Writer
/-!
# Json — the library in use

`Library.plain` reads a word only from a whole number in its range, a choice
from its name alone or with nothing in it, and a key only from its digits. A
record is read from an object, of which the last field of a name counts, or
from an array of its values in order, which may end early. Its texts may be
nested to any depth.
-/

namespace EventTrace

namespace Json

/-- The fields of an object without those that a later one of the same name
replaces. -/
def lastOnes : List (String × Json) → List (String × Json)
  | [] => []
  | field :: rest =>
    if field.1 ∈ rest.map Prod.fst then lastOnes rest else field :: lastOnes rest

/-- The key and the value of a field that files a value under a word. -/
def entryOf? {α : Type} (bits : Nat) (read? : Json → Option α) (field : String × Json) :
    Option (Int × α) := do
  let key ← Text.decimal? field.1
  guard (InWord bits key)
  return (key, ← read? field.2)

end Json

namespace Declaration

variable {R : Type} (D : Declaration R)

/-- What is in the slots of fields after one of them was read. -/
def fill (slots : (f : D.Field) → Option (D.Value f)) (f : D.Field) (value : D.Value f)
    (g : D.Field) : Option (D.Value g) :=
  if h : f = g then some (h ▸ value) else slots g

/-- The value of a field: what is in its slot, or what stands in for it. -/
def valueOf? (slots : (f : D.Field) → Option (D.Value f)) (f : D.Field) : Option (D.Value f) :=
  (slots f).or (D.absent.map (D.get · f))

/-- A record is read into slots, one for each field. -/
def slots : Visitor D where
  State := (f : D.Field) → Option (D.Value f)
  start _ := none
  visit slots key j :=
    match D.fields.find? (D.name · == key) with
    | some f => ((D.codec f).read? j).map (D.fill slots f)
    | none => some slots
  finish slots :=
    if h : ∀ f ∈ D.fields, (D.valueOf? slots f).isSome = true then
      some (D.build fun f => (D.valueOf? slots f).get (h f (D.mem_fields f)))
    else none
  slot slots := slots

/-- The record made of some fields. -/
def ofFields? (fields : List (String × Json)) : Option R :=
  (D.slots.visitAll D.slots.start (Json.lastOnes fields)).bind D.slots.finish

end Declaration

/-- The library in use. -/
def Library.plain : Library where
  unsigned bits := ⟨fun n => .integer n, Json.unsigned? bits⟩
  signed bits := ⟨.integer, Json.signed? bits⟩
  text := ⟨.string, Json.text?⟩
  list c := ⟨fun items => .array (items.map c.write), fun j => j.items?.bind (·.mapM c.read?)⟩
  choice C := ⟨fun a => .string (C.name a),
    fun j => j.choice?.bind fun name => C.variants.find? (C.name · == name)⟩
  keyed bits c := ⟨fun t => .object (t.rows.map fun row => (Text.decimal row.1, c.write row.2)),
    fun j => do return Table.ofList (← (← j.fields?).mapM (Json.entryOf? bits c.read?))⟩
  record D := ⟨fun r => .object (D.stored r), fun j => (j.record? D.names).bind D.ofFields?⟩
  visitor D := D.slots
  print j := j.toText?.getD ""
  decode? c text := (Json.ofText? text).bind c.read?

end EventTrace
