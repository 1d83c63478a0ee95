import EventTrace.Event.Basic
import EventTrace.Json.Plain
/-!
# Event — the stored form

An event is stored as an object with its seven fields (`Event.declaration`).
Reading it back asks for every field.
-/

namespace EventTrace

namespace Kind

/-- The title of a kind. -/
def title : Kind → String
  | scopeBegin => "Begin"
  | scopeEnd => "End"
  | flowStart => "FlowStart"
  | flowStep => "FlowStep"
  | flowEnd => "FlowEnd"
  | instant => "Instant"
  | counter => "Counter"

/-- Kinds are stored by name. -/
def choice : Choice Kind where
  variants := all
  title := title
  mem_variants := mem_all
  snake_injective a b := by cases a <;> cases b <;> decide

end Kind

namespace Event

/-- A value of an event, each of which is stored. -/
inductive Field where
  | timestamp
  | flow
  | value
  | sequence
  | id
  | thread
  | kind
deriving DecidableEq

namespace Field

/-- Every value, in the order they are stored in. -/
def all : List Field := [timestamp, flow, value, sequence, id, thread, kind]

/-- The name a value is stored under. -/
def name : Field → String
  | timestamp => "timestamp"
  | flow => "flow_id"
  | value => "value"
  | sequence => "sequence"
  | id => "id"
  | thread => "thread_id"
  | kind => "kind"

/-- The type of a value. -/
def Value : Field → Type
  | kind => Kind
  | timestamp | flow | value | sequence | id | thread => Int

/-- How a value is stored: the clock, the flow, the value and the sequence in
64 bits, the id and the thread in 32. -/
def codec (lib : Library) : (f : Field) → Codec f.Value
  | timestamp | flow | value | sequence => lib.signed 64
  | id | thread => lib.signed 32
  | kind => lib.choice Kind.choice

theorem mem_all (f : Field) : f ∈ all := by cases f <;> decide

theorem name_injective (f g : Field) : f.name = g.name → f = g := by
  cases f <;> cases g <;> decide

end Field

/-- What an event has in a field. -/
def get (e : Event) : (f : Field) → f.Value
  | .timestamp => e.timestamp
  | .flow => e.flow
  | .value => e.value
  | .sequence => e.sequence
  | .id => e.id
  | .thread => e.thread
  | .kind => e.kind

/-- The event with some values. -/
def build (value : (f : Field) → f.Value) : Event where
  timestamp := value .timestamp
  flow := value .flow
  value := value .value
  sequence := value .sequence
  id := value .id
  thread := value .thread
  kind := value .kind

/-- Events as declared to a library: nothing stands in for a field that is
absent. -/
def declaration (lib : Library) : Declaration Event where
  Field := Field
  Value := Field.Value
  fields := Field.all
  name := Field.name
  codec := Field.codec lib
  get := get
  build := build
  absent := none
  decEq := inferInstance
  mem_fields := Field.mem_all
  nodup_fields := by decide
  name_injective := Field.name_injective
  get_build value f := by cases f <;> rfl

/-- How a library stores events. -/
def codec (lib : Library) : Codec Event := lib.record (declaration lib)

/-- The stored form of an event. -/
def toJson (e : Event) : Json := (codec .plain).write e

/-- The event a stored form holds, if it holds one. -/
def ofJson? (j : Json) : Option Event := (codec .plain).read? j

end Event

end EventTrace
