import EventTrace.Ticks
/-!
# Rate — so many events in a second

A writer's rate window opens with an event and lasts one second of the live
clock. It admits events up to its limit and counts the others too; the first
event after the second is over opens the next window.
-/

namespace EventTrace

/-- A writer's current second. -/
structure RateWindow where
  /-- The events admitted in a window; zero admits all. -/
  limit : Nat
  /-- When the window opened. -/
  start : Int := TickRate.minTicks
  /-- The events that came in the window. -/
  count : Nat := 0
deriving DecidableEq, Repr, Inhabited

namespace RateWindow

/-- The ticks a window lasts. -/
def length : Int := TickRate.nanoseconds.perSeconds 1

/-- Whether there is a limit at all. -/
def isEnabled (w : RateWindow) : Bool := decide (0 < w.limit)

/-- The window an event falls into: the current one, or a new one if that is
over. -/
def current (w : RateWindow) (now : Int) : RateWindow :=
  if length ≤ now - w.start then { w with start := now, count := 0 } else w

/-- Whether an event is admitted, and the window after it. -/
def arrive (w : RateWindow) (now : Int) : Bool × RateWindow :=
  let window := w.current now
  (decide (window.count < window.limit), { window with count := window.count + 1 })

end RateWindow

end EventTrace
