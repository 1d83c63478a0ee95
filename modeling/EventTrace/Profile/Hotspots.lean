import EventTrace.Metadata
import EventTrace.Ranking
import EventTrace.Ticks
/-!
# Profile — hotspots

Hotspots flatten the call trees: one row for each id, with the number of its
closed scopes, their ticks, and how many each thread closed. Scopes are
recorded one at a time, in any order; a row's share is its part of the
exclusive ticks of all rows.
-/

namespace EventTrace

/-- A scope that was closed, with the ticks it took. -/
structure ClosedScope where
  id : Int
  thread : Int
  inclusive : Int
  exclusive : Int
deriving DecidableEq, Repr, Inhabited

/-- The closed scopes of one id. -/
structure IdTotals where
  count : Nat := 0
  inclusive : Int := 0
  exclusive : Int := 0
  /-- How many each thread closed. -/
  threads : Table Nat := ∅
deriving Inhabited

namespace IdTotals

/-- Counts one more scope. -/
def add (t : IdTotals) (scope : ClosedScope) : IdTotals where
  count := t.count + 1
  inclusive := Ticks.wrap (t.inclusive + scope.inclusive)
  exclusive := Ticks.wrap (t.exclusive + scope.exclusive)
  threads := t.threads.alter scope.thread fun n => n.getD 0 + 1

end IdTotals

/-- The closed scopes of every id. -/
structure Hotspots where
  ids : Table IdTotals := ∅
  /-- Exclusive ticks of all ids together. -/
  totalExclusive : Int := 0
deriving Inhabited

/-- A row as reported. -/
structure HotspotRow where
  id : Int
  name : String
  count : Nat
  inclusiveMs : Float
  exclusiveMs : Float
  /-- The share of all exclusive time, in percent. -/
  exclusivePercentage : Float
  /-- Closed scopes by thread, ascending. -/
  threads : List (Int × Nat)

namespace Hotspots

/-- Records one closed scope. -/
def record (h : Hotspots) (scope : ClosedScope) : Hotspots where
  ids := h.ids.alter scope.id fun totals => (totals.getD {}).add scope
  totalExclusive := Ticks.wrap (h.totalExclusive + scope.exclusive)

/-- The number of ids with a row. -/
def size (h : Hotspots) : Nat := h.ids.size

/-- Whether nothing was recorded. -/
def isEmpty (h : Hotspots) : Bool := h.size == 0

/-- The rows in ticks, most inclusive ticks first. -/
def ranked (h : Hotspots) : List (Int × IdTotals) :=
  rankBy (fun row => (row.2.inclusive, row.1)) h.ids.rows

/-- A part of all exclusive ticks in percent, zero where the whole is not
positive. -/
def share (h : Hotspots) (exclusive : Int) : Float :=
  if 0 < h.totalExclusive then Float.ofInt exclusive / Float.ofInt h.totalExclusive * 100.0 else 0.0

/-- The rows as reported, most inclusive ticks first. -/
def report (h : Hotspots) (rate : TickRate) (metadata : Option Provider) : List HotspotRow :=
  h.ranked.map fun row => {
    id := row.1
    name := displayName metadata row.1
    count := row.2.count
    inclusiveMs := rate.toMillis row.2.inclusive
    exclusiveMs := rate.toMillis row.2.exclusive
    exclusivePercentage := h.share row.2.exclusive
    threads := row.2.threads.sorted }

end Hotspots

end EventTrace
