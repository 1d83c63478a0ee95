import EventTrace.Json.Plain
import EventTrace.Options.Basic
/-!
# Options — the stored form

Options are stored as an object with a field for each of nine values; a
provider and the parties to be told are never stored (`Options.declaration`).
A field that is absent stands for the default. The rates of single ids are
filed under the ids.
-/

namespace EventTrace

namespace Policy

/-- Policies are stored by name. -/
def choice : Choice Policy where
  variants := all
  title := title
  mem_variants p := by cases p <;> decide
  snake_injective p q := by cases p <;> cases q <;> decide

end Policy

namespace Options

/-- A value of options that is stored. -/
inductive Field where
  | chunkCapacity
  | maxTotalEvents
  | maxTotalChunks
  | policy
  | sampleEvery
  | sampleEveryById
  | maxEventsPerSecond
  | enabledCategories
  | disabledCategories
deriving DecidableEq

namespace Field

/-- Every stored value, in the order they are stored in. -/
def all : List Field :=
  [chunkCapacity, maxTotalEvents, maxTotalChunks, policy, sampleEvery, sampleEveryById,
    maxEventsPerSecond, enabledCategories, disabledCategories]

/-- The name a value is stored under. -/
def name : Field → String
  | chunkCapacity => "chunk_capacity"
  | maxTotalEvents => "max_total_events"
  | maxTotalChunks => "max_total_chunks"
  | policy => "overflow_policy"
  | sampleEvery => "sample_every_n_global"
  | sampleEveryById => "sample_every_n_by_id"
  | maxEventsPerSecond => "max_events_per_second"
  | enabledCategories => "enabled_categories"
  | disabledCategories => "disabled_categories"

/-- The type of a value. -/
def Value : Field → Type
  | chunkCapacity | maxTotalEvents | maxTotalChunks | sampleEvery | maxEventsPerSecond => Nat
  | policy => Policy
  | sampleEveryById => Table Nat
  | enabledCategories | disabledCategories => List String

/-- How a value is stored: sizes and counts in 64 bits, ids and rates in 32. -/
def codec (lib : Library) : (f : Field) → Codec f.Value
  | chunkCapacity | maxTotalEvents | maxTotalChunks | maxEventsPerSecond => lib.unsigned 64
  | sampleEvery => lib.unsigned 32
  | policy => lib.choice Policy.choice
  | sampleEveryById => lib.keyed 32 (lib.unsigned 32)
  | enabledCategories | disabledCategories => lib.list lib.text

theorem mem_all (f : Field) : f ∈ all := by cases f <;> decide

theorem name_injective (f g : Field) : f.name = g.name → f = g := by
  cases f <;> cases g <;> decide

end Field

/-- What options have in a field. -/
def get (o : Options) : (f : Field) → f.Value
  | .chunkCapacity => o.chunkCapacity
  | .maxTotalEvents => o.maxTotalEvents
  | .maxTotalChunks => o.maxTotalChunks
  | .policy => o.policy
  | .sampleEvery => o.sampleEvery
  | .sampleEveryById => o.sampleEveryById
  | .maxEventsPerSecond => o.maxEventsPerSecond
  | .enabledCategories => o.enabledCategories
  | .disabledCategories => o.disabledCategories

/-- The options with some values, without provider and listeners. -/
def build (value : (f : Field) → f.Value) : Options where
  chunkCapacity := value .chunkCapacity
  maxTotalEvents := value .maxTotalEvents
  maxTotalChunks := value .maxTotalChunks
  policy := value .policy
  sampleEvery := value .sampleEvery
  sampleEveryById := value .sampleEveryById
  maxEventsPerSecond := value .maxEventsPerSecond
  enabledCategories := value .enabledCategories
  disabledCategories := value .disabledCategories

/-- Options as declared to a library: the defaults stand in for fields that are
absent. -/
def declaration (lib : Library) : Declaration Options where
  Field := Field
  Value := Field.Value
  fields := Field.all
  name := Field.name
  codec := Field.codec lib
  get := get
  build := build
  absent := some {}
  decEq := inferInstance
  mem_fields := Field.mem_all
  nodup_fields := by decide
  name_injective := Field.name_injective
  get_build value f := by cases f <;> rfl

/-- How a library stores options. -/
def codec (lib : Library) : Codec Options := lib.record (declaration lib)

/-- The stored form of options. -/
def toJson (o : Options) : Json := (codec .plain).write o

/-- The options a stored form holds, if it holds any. -/
def ofJson? (j : Json) : Option Options := (codec .plain).read? j

end Options

end EventTrace
