import EventTrace.Metadata
/-!
# Options — what a capture is asked to keep

Options cap what a capture holds, say what to do at a cap, thin the events
by sampling and by rate, and pick ids by category. Zero means "no limit" for
a cap and "keep all" for a rate. `validate` refuses the combinations that
cannot work; it looks at the chunk capacity first, then at the rates of
single ids, then at the categories.
-/

namespace EventTrace

/-! ## Overflow -/

/-- What to do at a cap. -/
inductive Policy where
  /-- Refuse the new event. -/
  | dropNew
  /-- Give up the oldest chunk that no writer holds. -/
  | dropOldest
  /-- Refuse the new event and close the capture. -/
  | stopSession
deriving DecidableEq, Repr, Inhabited

namespace Policy

/-- Every policy. -/
def all : List Policy := [dropNew, dropOldest, stopSession]

/-- The written name of a policy. -/
def name : Policy → String
  | dropNew => "drop_new"
  | dropOldest => "drop_oldest"
  | stopSession => "stop_session"

/-- The policy with a written name. -/
def ofName? (s : String) : Option Policy := all.find? (·.name == s)

/-- The name of a policy in a message. -/
def title : Policy → String
  | dropNew => "DropNew"
  | dropOldest => "DropOldest"
  | stopSession => "StopSession"

theorem ofName?_name (p : Policy) : ofName? p.name = some p := by cases p <;> decide

end Policy

/-- The limit that was reached. -/
inductive Reason where
  | maxTotalEvents
  | maxTotalChunks
  | rateLimit
deriving DecidableEq, Repr, Inhabited

namespace Reason

/-- Every reason. -/
def all : List Reason := [maxTotalEvents, maxTotalChunks, rateLimit]

/-- The written name of a reason. -/
def name : Reason → String
  | maxTotalEvents => "max_total_events"
  | maxTotalChunks => "max_total_chunks"
  | rateLimit => "rate_limit"

/-- The reason with a written name. -/
def ofName? (s : String) : Option Reason := all.find? (·.name == s)

/-- The name of a reason in a message. -/
def title : Reason → String
  | maxTotalEvents => "MaxTotalEvents"
  | maxTotalChunks => "MaxTotalChunks"
  | rateLimit => "RateLimit"

end Reason

/-! ## Options -/

/-- The chunk capacity used where none is asked for. -/
def defaultChunkCapacity : Nat := 16384

/-- The smallest chunk capacity of a live capture. -/
def minChunkCapacity : Nat := 1024

/-- What a capture is asked to keep, and whom it tells. -/
structure Options where
  /-- Events in a chunk. -/
  chunkCapacity : Nat := defaultChunkCapacity
  /-- Cap on the events held, zero for none. -/
  maxTotalEvents : Nat := 0
  /-- Cap on the chunks held at a time, zero for none. -/
  maxTotalChunks : Nat := 0
  /-- What to do at either cap. -/
  policy : Policy := .dropNew
  /-- Keep one event in so many; zero and one keep all. -/
  sampleEvery : Nat := 0
  /-- The same for single ids, in place of the common rate. -/
  sampleEveryById : Table Nat := ∅
  /-- Events a thread may record in a second, zero for any number. -/
  maxEventsPerSecond : Nat := 0
  /-- If there are any, only ids of these categories are recorded. -/
  enabledCategories : List String := []
  /-- Ids of these categories are not recorded, unless others are enabled. -/
  disabledCategories : List String := []
  /-- Where names and categories of ids come from. -/
  metadata : Option Provider := none
  /-- Whether someone is told of the first overflow. -/
  tellsOverflow : Bool := false
  /-- Whether someone is told of mismatched ends. -/
  tellsMismatch : Bool := false
deriving Inhabited

/-- Why options cannot work. -/
inductive OptionsError where
  | zeroChunkCapacity
  | zeroSampleRate (id : Int)
  | categoryFilterWithoutMetadata
deriving DecidableEq, Repr

namespace OptionsError

/-- What is said of the error. -/
def message : OptionsError → String
  | zeroChunkCapacity => "chunk_capacity must be greater than zero"
  | zeroSampleRate id => s!"sample rate for id {id} must be greater than zero"
  | categoryFilterWithoutMetadata =>
    "category filters need a metadata provider to resolve categories"

end OptionsError

namespace Options

/-- Whether some category is picked or left out. -/
def hasCategoryFilter (o : Options) : Bool :=
  !o.enabledCategories.isEmpty || !o.disabledCategories.isEmpty

/-- Whether some rate thins the events. -/
def hasSampling (o : Options) : Bool :=
  decide (1 < o.sampleEvery) || o.sampleEveryById.values.any (1 < ·)

/-- The chunk capacity a live capture uses: the one asked for, raised to the
smallest that is worth its upkeep. -/
def effectiveChunkCapacity (o : Options) : Nat := max o.chunkCapacity minChunkCapacity

/-- Refuses options that cannot work, for the first of the three causes. -/
def validate (o : Options) : Except OptionsError Unit :=
  if o.chunkCapacity = 0 then .error .zeroChunkCapacity
  else match o.sampleEveryById.rows.find? (·.2 == 0) with
    | some row => .error (.zeroSampleRate row.1)
    | none =>
      if o.hasCategoryFilter && o.metadata.isNone then .error .categoryFilterWithoutMetadata
      else .ok ()

/-- Sets the rate of one id. -/
def withIdSampling (o : Options) (id : Int) (every : Nat) : Options :=
  { o with sampleEveryById := o.sampleEveryById.insert id every }

end Options

end EventTrace
