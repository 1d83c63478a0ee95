import EventTrace.Capture.State
import EventTrace.Ticks
/-!
# Capture — scopes and flows in the hands of a caller

A scope is held by a guard on one thread: its begin is recorded when the
guard is made, its end when the guard is closed. A guard made while nothing
ran is inert, and one whose session is no longer the current one closes
silently, since the later session never saw its begin. A flow is held by a
handle that any thread may use and that ends at most once, or by a flow scope
that ends its handle when it is dropped.
-/

namespace EventTrace

/-! ## Scopes -/

/-- A scope in the hands of its thread. -/
structure ScopeGuard where
  id : Int
  /-- The version whose session the begin went to, none for an inert guard. -/
  version : Option Nat
deriving DecidableEq, Repr, Inhabited

namespace ScopeGuard

/-- Whether closing the guard may record an end. -/
def isActive (g : ScopeGuard) : Bool := g.version.isSome

end ScopeGuard

namespace Capture

/-- Opens a scope on a thread. -/
def openScope (c : Capture) (t : ThreadId) (id : Int) (now : Reading) : ScopeGuard × Capture :=
  if c.running then
    (⟨id, some c.version⟩, c.emit t { id, kind := .scopeBegin } now)
  else (⟨id, none⟩, c)

/-- Closes a scope on its thread. -/
def closeScope (c : Capture) (t : ThreadId) (g : ScopeGuard) (now : Reading) : Capture :=
  if g.version = some c.version then c.emit t { id := g.id, kind := .scopeEnd } now else c

/-! ## Flow numbers -/

/-- The flow number after another: the next word of 64 bits that is not the
number of no flow. -/
def nextFlow (flow : Int) : Int :=
  let next := if flow = TickRate.maxTicks then TickRate.minTicks else flow + 1
  if next = noFlow then 1 else next

/-- Gives out a flow number. -/
def newFlow (c : Capture) : Int × Capture :=
  (nextFlow c.lastFlow, { c with lastFlow := nextFlow c.lastFlow })

/-- Records a link of a flow; of no flow, nothing is recorded. -/
def link (c : Capture) (t : ThreadId) (id : Int) (kind : Kind) (flow : Int) (now : Reading) :
    Capture :=
  if flow = noFlow then c else c.emit t { id, kind, flow } now

/-- Starts a flow under a number given out for it. -/
def startNewFlow (c : Capture) (t : ThreadId) (id : Int) (now : Reading) : Int × Capture :=
  let given := c.newFlow
  (given.1, given.2.link t id .flowStart given.1 now)

end Capture

/-! ## Flow handles -/

/-- A flow in the hands of whoever ends it. -/
structure FlowHandle where
  id : Int
  flow : Int
  ended : Bool := false
deriving DecidableEq, Repr, Inhabited

namespace FlowHandle

/-- A handle of no flow. -/
def inert (id : Int) : FlowHandle := { id, flow := noFlow }

/-- Whether the handle is of a flow. -/
def isValid (h : FlowHandle) : Bool := h.flow != noFlow

end FlowHandle

namespace Capture

/-- Starts a flow and hands it out; while nothing runs, the handle is
inert. -/
def startFlow (c : Capture) (t : ThreadId) (id : Int) (now : Reading) : FlowHandle × Capture :=
  if c.running then
    let started := c.startNewFlow t id now
    ({ id, flow := started.1 }, started.2)
  else (.inert id, c)

/-- Records a step of a flow that has not ended. -/
def stepFlow (c : Capture) (t : ThreadId) (h : FlowHandle) (now : Reading) : Capture :=
  if h.isValid && !h.ended then c.link t h.id .flowStep h.flow now else c

/-- Ends a flow: whether this was the call that ended it, with the handle
and the process after it. -/
def endFlow (c : Capture) (t : ThreadId) (h : FlowHandle) (now : Reading) :
    Bool × FlowHandle × Capture :=
  if h.isValid && !h.ended then
    (true, { h with ended := true }, c.link t h.id .flowEnd h.flow now)
  else (false, h, c)

end Capture

/-! ## Flow scopes -/

/-- A flow that ends when it is dropped. -/
structure FlowScope where
  handle : FlowHandle
deriving DecidableEq, Repr, Inhabited

namespace FlowScope

/-- Takes the flow out of its scope: the open handle, and a scope with
nothing left to end. -/
def intoHandle (f : FlowScope) : FlowHandle × FlowScope := (f.handle, ⟨.inert f.handle.id⟩)

end FlowScope

namespace Capture

/-- Starts a flow that ends with its scope. -/
def openFlow (c : Capture) (t : ThreadId) (id : Int) (now : Reading) : FlowScope × Capture :=
  let started := c.startFlow t id now
  (⟨started.1⟩, started.2)

/-- Drops a flow scope: its flow ends, unless it has ended. -/
def dropFlow (c : Capture) (t : ThreadId) (f : FlowScope) (now : Reading) : Capture :=
  (c.endFlow t f.handle now).2.2

end Capture

end EventTrace
