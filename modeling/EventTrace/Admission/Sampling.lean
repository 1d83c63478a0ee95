import EventTrace.Event.Basic
import EventTrace.Options.Basic
/-!
# Sampling — one event in so many

A writer keeps the first of every `n` draws. An id with a rate of its own
draws by that rate and its own count; all other ids share the common rate
and one count. Begins, instants and counters draw; an end repeats the
decision of the begin it closes, so a kept scope is kept whole; links of a
flow are always kept, and so is an end that closes nothing.
-/

namespace EventTrace

/-- A writer's draws so far. -/
structure Sampler where
  /-- The common rate. -/
  every : Nat
  /-- The rates of single ids. -/
  everyById : Table Nat
  /-- Draws at the common rate. -/
  drawn : Nat := 0
  /-- Draws of single ids. -/
  drawnById : Table Nat := ∅
  /-- Whether each open begin was kept, the innermost first. -/
  scopes : List Bool := []
deriving Inhabited

namespace Sampler

/-- No draws yet, at the rates of some options. -/
def ofOptions (o : Options) : Sampler where
  every := o.sampleEvery
  everyById := o.sampleEveryById

/-- Whether some rate leaves events out. -/
def isEnabled (s : Sampler) : Bool := decide (1 < s.every) || s.everyById.values.any (1 < ·)

/-- One draw: whether the event is kept, and the draws after it. -/
def draw (s : Sampler) (id : Int) : Bool × Sampler :=
  match s.everyById.get? id with
  | some rate =>
    if rate ≤ 1 then (true, s)
    else
      let count := (s.drawnById.get? id).getD 0 + 1
      (count % rate == 1, { s with drawnById := s.drawnById.insert id count })
  | none =>
    if s.every ≤ 1 then (true, s)
    else
      let count := s.drawn + 1
      (count % s.every == 1, { s with drawn := count })

/-- Whether an event is kept, and the draws after it. -/
def keep (s : Sampler) (id : Int) : Kind → Bool × Sampler
  | .scopeBegin =>
    let drawn := s.draw id
    (drawn.1, { drawn.2 with scopes := drawn.1 :: drawn.2.scopes })
  | .scopeEnd =>
    match s.scopes with
    | [] => (true, s)
    | kept :: below => (kept, { s with scopes := below })
  | .instant | .counter => s.draw id
  | .flowStart | .flowStep | .flowEnd => (true, s)

/-- Options ask for sampling exactly when their sampler is at work. -/
theorem isEnabled_ofOptions (o : Options) : (ofOptions o).isEnabled = o.hasSampling := rfl

end Sampler

end EventTrace
