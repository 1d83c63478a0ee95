import EventTrace.Depot.Writing
/-!
# Capture — the state of a capturing process

A process captures one session at a time. Every start has a version of its
own, and every thread keeps a slot with the writer it used last and the
version that writer belongs to; a thread whose writer is of an older version
gets a new one with its next event. While nothing runs, an emission does
nothing. Sessions share a depot as long as their chunks are of one capacity.
-/

namespace EventTrace

/-- The place of a thread in its process. -/
abbrev ThreadId := Nat

/-- What a process keeps for a thread. -/
structure Slot where
  /-- The number the thread goes by. -/
  number : Int
  name : Option String
  /-- The version its writer belongs to. -/
  version : Nat := 0
  writer : Option WriterId := none
  /-- Whether a write of the thread is under way, as seen from within it. -/
  lent : Bool := false
deriving DecidableEq, Repr, Inhabited

/-- The session that runs. -/
structure LiveSession where
  version : Nat
  collector : CollectorId
  options : Options
  startTime : Int
deriving Inhabited

/-- The state of a capturing process. -/
structure Capture where
  /-- Whether a session runs; the only thing an emission asks while idle. -/
  running : Bool := false
  /-- How many sessions were started. -/
  version : Nat := 0
  /-- The flow number given out last. -/
  lastFlow : Int := noFlow
  session : Option LiveSession := none
  /-- The chunks; at first for no session's capacity. -/
  depot : Depot := .ofCapacity 0
  slots : Array Slot := #[]

namespace Capture

instance : Inhabited Capture := ⟨{}⟩

/-! ## Threads -/

/-- A process with threads of some names, numbered from one. -/
def ofThreads (names : List (Option String)) : Capture where
  slots := (names.zipIdx.map fun p => ({ number := p.2 + 1, name := p.1 } : Slot)).toArray

/-- The slot of a thread. -/
def slot (c : Capture) (t : ThreadId) : Slot := c.slots[t]?.getD default

/-- Changes the slot of a thread. -/
def modifySlot (c : Capture) (t : ThreadId) (f : Slot → Slot) : Capture :=
  { c with slots := c.slots.modify t f }

/-- The number a thread goes by, as seen by a caller on it: zero from within
a write, since the slot is in use then. -/
def threadNumber (c : Capture) (t : ThreadId) : Int :=
  if (c.slot t).lent then 0 else (c.slot t).number

/-- The process as someone sees it who is told of something in the middle of
a thread's write. -/
def duringWrite (c : Capture) (t : ThreadId) : Capture :=
  c.modifySlot t fun s => { s with lent := true }

/-- Drops the writer of a thread, whatever session it belongs to. -/
def dropWriter (c : Capture) (t : ThreadId) : Capture :=
  match (c.slot t).writer with
  | none => c
  | some w =>
    { c.modifySlot t fun s => { s with writer := none } with depot := c.depot.dropWriter w }

/-- Ends a thread: it lets its writer go. -/
def endThread (c : Capture) (t : ThreadId) : Capture := c.dropWriter t

/-! ## Emitting -/

/-- A thread's writer for the current version: the one it has, or a new one
in place of an older one. None if no session of that version is live. -/
def bind (c : Capture) (t : ThreadId) : Option WriterId × Capture :=
  let s := c.slot t
  if s.version = c.version ∧ s.writer.isSome then (s.writer, c)
  else
    let c := c.dropWriter t
    match c.session with
    | none => (none, c)
    | some live =>
      if live.version = c.version then
        let made := c.depot.newWriter live.collector s.number s.name
        (some made.1,
          { c.modifySlot t fun s => { s with version := c.version, writer := some made.1 } with
            depot := made.2 })
      else (none, c)

/-- Records one event of a thread. Nothing is recorded while no session
runs, nor from within a write of the same thread. -/
def emit (c : Capture) (t : ThreadId) (e : Emission) (now : Reading) : Capture :=
  if !c.running || (c.slot t).lent then c
  else match c.bind t with
    | (none, c) => c
    | (some w, c) => { c with depot := (c.depot.write w e now).2 }

/-- Records a point in time. -/
def instant (c : Capture) (t : ThreadId) (id : Int) (now : Reading) : Capture :=
  c.emit t { id, kind := .instant } now

/-- Records a sample. -/
def counter (c : Capture) (t : ThreadId) (id value : Int) (now : Reading) : Capture :=
  c.emit t { id, kind := .counter, value } now

end Capture

end EventTrace
