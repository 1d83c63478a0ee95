import EventTrace.Admission.Category
import EventTrace.Admission.Rate
import EventTrace.Admission.Sampling
/-!
# Screen — what a writer turns away before it asks for room

Before an event is given room it passes three tests, the cheapest first: its
category, then sampling, then the rate window. The category of an id is
looked up once and remembered, and a sampler or a window that leaves nothing
out is not consulted.
-/

namespace EventTrace

/-- What came of screening an event. -/
inductive Verdict where
  | passed
  /-- Its category is not recorded. -/
  | filtered
  | sampledOut
  | rateLimited
deriving DecidableEq, Repr, Inhabited

/-- A writer's tests and what they remember. -/
structure Screen where
  filter : Option CategoryFilter
  /-- The answers of the filter so far. -/
  answers : Table Bool := ∅
  sampler : Sampler
  window : RateWindow

namespace Screen

/-- The tests that options ask for. -/
def ofOptions (o : Options) : Screen where
  filter := CategoryFilter.ofOptions? o
  sampler := .ofOptions o
  window := { limit := o.maxEventsPerSecond }

instance : Inhabited Screen := ⟨ofOptions {}⟩

/-- Whether an id passes the filter, by an earlier answer if there is one. -/
def passesFilter (s : Screen) (id : Int) : Bool × Screen :=
  match s.filter with
  | none => (true, s)
  | some f =>
    match s.answers.get? id with
    | some answer => (answer, s)
    | none => (f.allows id, { s with answers := s.answers.insert id (f.allows id) })

/-- Whether sampling keeps an event. -/
def keeps (s : Screen) (id : Int) (kind : Kind) : Bool × Screen :=
  if s.sampler.isEnabled then
    let kept := s.sampler.keep id kind
    (kept.1, { s with sampler := kept.2 })
  else (true, s)

/-- Whether the rate window admits an event. -/
def admits (s : Screen) (now : Int) : Bool × Screen :=
  if s.window.isEnabled then
    let admitted := s.window.arrive now
    (admitted.1, { s with window := admitted.2 })
  else (true, s)

/-- Screens an event that comes at some time. -/
def screen (s : Screen) (id : Int) (kind : Kind) (now : Int) : Verdict × Screen :=
  match s.passesFilter id with
  | (false, s) => (.filtered, s)
  | (true, s) =>
    match s.keeps id kind with
    | (false, s) => (.sampledOut, s)
    | (true, s) =>
      match s.admits now with
      | (false, s) => (.rateLimited, s)
      | (true, s) => (.passed, s)

end Screen

end EventTrace
