import EventTrace.Profile.Basic
/-!
# Durations — how long scopes took, id by id

A lighter pass than a profile: scopes are matched in the same way and the
same damage is counted, but no tree is built. For each id it keeps how many
scopes were closed, their ticks in total, and the shortest and the longest.
-/

namespace EventTrace

/-! ## One id -/

/-- The durations of one id's closed scopes. -/
structure Spread where
  count : Nat
  total : Int
  shortest : Int
  longest : Int
deriving DecidableEq, Repr, Inhabited

namespace Spread

/-- A first duration. -/
def first (ticks : Int) : Spread := ⟨1, ticks, ticks, ticks⟩

/-- One more duration. -/
def add (s : Spread) (ticks : Int) : Spread :=
  ⟨s.count + 1, Ticks.wrap (s.total + ticks), min s.shortest ticks, max s.longest ticks⟩

/-- A duration after the ones so far, if any. -/
def extend (before : Option Spread) (ticks : Int) : Spread :=
  match before with
  | none => first ticks
  | some s => s.add ticks

end Spread

/-! ## The pass -/

/-- A pass under way. -/
structure DurationPass where
  /-- Open frames by thread, the innermost first. -/
  threads : Table (List (Frame Unit)) := ∅
  ids : Table Spread := ∅
  anomalies : Anomalies := {}
  mismatches : Array Mismatch := #[]
  scopeEvents : Nat := 0
deriving Inhabited

namespace DurationPass

/-- The frames open on a thread. -/
def framesOf (p : DurationPass) (thread : Int) : List (Frame Unit) :=
  (p.threads.get? thread).getD []

/-- Opens a scope. -/
def openScope (p : DurationPass) (e : Event) : DurationPass :=
  { p with
    threads := p.threads.insert e.thread (⟨e.id, e.timestamp, ()⟩ :: p.framesOf e.thread)
    scopeEvents := p.scopeEvents + 1 }

/-- Counts a matched scope, unless its ticks are less than zero. -/
def count (p : DurationPass) (e : Event) (frame : Frame Unit) : DurationPass :=
  let ticks := Ticks.wrap (e.timestamp - frame.start)
  if ticks < 0 then { p with anomalies := p.anomalies + { invalidDurations := 1 } }
  else { p with ids := p.ids.alter frame.id fun s => Spread.extend s ticks }

/-- Closes a scope. -/
def closeScope (strict : Bool) (p : DurationPass) (e : Event) : DurationPass :=
  let frames := p.framesOf e.thread
  let closing := Nesting.close strict e.id frames
  let p : DurationPass := { p with
    threads := p.threads.insert e.thread ((closing.matched.map Match.below).getD frames)
    anomalies := p.anomalies + closing.anomalies
    mismatches := closing.expected.elim p.mismatches fun expected =>
      p.mismatches.push ⟨e.thread, expected, e.id, e.timestamp⟩
    scopeEvents := p.scopeEvents + 1 }
  match closing.matched with
  | none => p
  | some m => p.count e m.frame

/-- What an event does: only begins and ends count. -/
def apply (strict : Bool) (p : DurationPass) (e : Event) : DurationPass :=
  match e.kind with
  | .scopeBegin => p.openScope e
  | .scopeEnd => p.closeScope strict e
  | _ => p

/-- The pass over some events. -/
def run (strict : Bool) (events : List Event) : DurationPass := events.foldl (apply strict) {}

/-- The ids in ticks, most ticks in total first. -/
def ranked (p : DurationPass) : List (Int × Spread) :=
  rankBy (fun row => (row.2.total, row.1)) p.ids.rows

/-- The damage to the nesting, frames left open included. -/
def totalAnomalies (p : DurationPass) : Anomalies :=
  p.threads.values.foldl (fun sum frames => sum + Nesting.leftOpen frames) p.anomalies

end DurationPass

/-! ## The report -/

/-- An id as reported. -/
structure IdDurations where
  id : Int
  name : String
  count : Nat
  totalMs : Float
  averageMs : Float
  shortestMs : Float
  longestMs : Float

/-- The durations of a recording. -/
structure DurationReport where
  durationMs : Float
  scopeEvents : Nat
  /-- Threads with a begin or an end. -/
  threadsSeen : Nat
  anomalies : Anomalies
  /-- Most time in total first. -/
  ids : List IdDurations
  /-- The mismatched ends that were told of, in the order of the events. -/
  told : List Mismatch

namespace Recording

/-- An id as reported. -/
def showSpread (r : Recording) (row : Int × Spread) : IdDurations :=
  let totalMs := r.rate.toMillis row.2.total
  { id := row.1
    name := r.nameOf row.1
    count := row.2.count
    totalMs
    averageMs := totalMs / Float.ofNat row.2.count
    shortestMs := r.rate.toMillis row.2.shortest
    longestMs := r.rate.toMillis row.2.longest }

/-- The durations of a recording. -/
def durations (r : Recording) (strict : Bool) : DurationReport :=
  let pass := DurationPass.run strict r.events
  { durationMs := r.durationMs
    scopeEvents := pass.scopeEvents
    threadsSeen := pass.threads.size
    anomalies := pass.totalAnomalies
    ids := pass.ranked.map r.showSpread
    told := r.told pass.mismatches }

end Recording

end EventTrace
