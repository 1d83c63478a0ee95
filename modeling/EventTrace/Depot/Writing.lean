import EventTrace.Depot.Session
/-!
# Depot — writing events

A writer records the events of one thread in one session. A write is refused
if the writer or its session is closed; then it is screened; then it needs a
chunk with room, for which a full one is let go; then it needs admission
against the event cap; and only then it is stamped and written. Every
refusal is counted where it arises, and nowhere twice.
-/

namespace EventTrace

/-- An event before it is stamped. -/
structure Emission where
  id : Int
  kind : Kind
  flow : Int := noFlow
  value : Int := 0
deriving DecidableEq, Repr, Inhabited

/-- What the clock shows in the course of a write. -/
structure Reading where
  /-- When the rate window is asked. -/
  arrival : Int
  /-- When the event is stamped. -/
  stamp : Int
deriving DecidableEq, Repr, Inhabited

namespace Depot

/-! ## Coming and going -/

/-- A writer for a thread, registered with a session. -/
def newWriter (d : Depot) (k : CollectorId) (thread : Int) (name : Option String) :
    WriterId × Depot :=
  let linked := d.newLink
  let registered := linked.2.registerLink k linked.1
  let named := match name with
    | some name => registered.nameThread k thread name
    | none => registered
  let screen := Screen.ofOptions (named.collector k).options
  (named.writers.size,
    { named with
      writers := named.writers.push
        (some { collector := some k, link := linked.1, thread, screen }) })

/-- Whether a writer or its session is closed. -/
def isWriterClosed (d : Depot) (w : Writer) : Bool :=
  d.isLinkClosed w.link || w.collector.all fun k => (d.collector k).closed

/-- Lets a writer's chunk go. -/
def letGo (d : Depot) (w : WriterId) (k : CollectorId) : Depot :=
  match (d.writer? w).bind Writer.chunk with
  | none => d
  | some c => (d.modifyWriter w fun s => { s with chunk := none }).releaseChunk k c

/-- Takes a writer out of its session for good. -/
def detach (d : Depot) (w : WriterId) : Depot :=
  match d.writer? w with
  | none => d
  | some s =>
    let closed := d.closeLink s.link
    match s.collector with
    | none => closed
    | some k => (closed.modifyWriter w fun s => { s with collector := none }).letGo w k

/-- Drops a writer: its chunk is let go and its place stays empty. -/
def dropWriter (d : Depot) (w : WriterId) : Depot :=
  match d.writer? w with
  | none => d
  | some s =>
    let released := match s.collector with
      | none => d
      | some k => d.letGo w k
    { released with writers := released.writers.modify w fun _ => none }

/-! ## Writing -/

/-- Lets a writer's chunk go and rents another: whether there was one to
rent. -/
def renewChunk (d : Depot) (w : WriterId) (k : CollectorId) : Bool × Depot :=
  match (d.letGo w k).rentChunk k with
  | (none, d) => (false, d)
  | (some c, d) => (true, d.modifyWriter w fun s => { s with chunk := some c })

/-- Sees to it that a writer holds a chunk with room: whether it does. -/
def holdRoom (d : Depot) (w : WriterId) (k : CollectorId) : Bool × Depot :=
  match (d.writer? w).bind Writer.chunk with
  | some c => if (d.chunk c).isFull then d.renewChunk w k else (true, d)
  | none => d.renewChunk w k

/-- Stamps an event and writes it to a writer's chunk: whether there was
room. -/
def append (d : Depot) (w : WriterId) (e : Emission) (stamp : Int) : Bool × Depot :=
  match d.writer? w with
  | none => (false, d)
  | some s =>
    match s.chunk with
    | none => (false, d)
    | some c =>
      let event : Event := { id := e.id, thread := s.thread, timestamp := stamp, kind := e.kind,
                             flow := e.flow, value := e.value, sequence := s.sequence }
      (!(d.chunk c).isFull,
        (d.modifyWriter w fun s => { s with sequence := s.sequence + 1 }).modifyChunk c
          (·.push event))

/-- Gives an event that passed the screen its room: whether it was written. -/
def place (d : Depot) (w : WriterId) (k : CollectorId) (e : Emission) (stamp : Int) :
    Bool × Depot :=
  match d.holdRoom w k with
  | (false, d) => (false, d.recordDropped k .maxTotalChunks)
  | (true, d) =>
    match d.admitEvent k with
    | (false, d) => (false, d)
    | (true, d) => d.append w e stamp

/-- Records an event: whether it was written. -/
def write (d : Depot) (w : WriterId) (e : Emission) (now : Reading) : Bool × Depot :=
  match d.writer? w with
  | none => (false, d)
  | some s =>
    match s.collector with
    | none => (false, d.detach w)
    | some k =>
      if d.isWriterClosed s then (false, d.detach w)
      else
        let screened := s.screen.screen e.id e.kind now.arrival
        let d := d.modifyWriter w fun s => { s with screen := screened.2 }
        match screened.1 with
        | .filtered => (false, d)
        | .sampledOut => (false, d.recordSampledOut k)
        | .rateLimited => (false, d.recordRateLimited k)
        | .passed => d.place w k e now.stamp

end Depot

end EventTrace
