import EventTrace.Admission.Screen
import EventTrace.Event.Basic
import EventTrace.Losses
/-!
# Depot — one pool of chunks and everyone who refers to them

Events are written into chunks of a fixed capacity. A depot owns the chunks:
it keeps those that are free for use, and knows everyone who refers to the
others. A collector, one for each session, keeps a ledger of the chunks that
session rented. A writer holds the chunk it is filling. Outside both, a
rental is write access to a chunk, and a share is read access.

A chunk keeps its identity for good: identities are places in `chunks`, and
no place is used twice. What refers to a chunk is counted over the holders
themselves (`references`), so nothing can be free while someone holds it
without that showing in the state.
-/

namespace EventTrace

/-! ## Chunks -/

/-- The identity of a chunk. -/
abbrev ChunkId := Nat

/-- A buffer of events. -/
structure Chunk where
  /-- The events it has room for. -/
  capacity : Nat
  events : Array Event := #[]
deriving Repr

namespace Chunk

/-- An empty chunk; it has room for one event at least. -/
def ofCapacity (capacity : Nat) : Chunk := { capacity := max capacity 1 }

instance : Inhabited Chunk := ⟨ofCapacity 1⟩

/-- The number of events written. -/
def size (c : Chunk) : Nat := c.events.size

/-- Whether nothing is written. -/
def isEmpty (c : Chunk) : Bool := c.size == 0

/-- Whether there is no room left. -/
def isFull (c : Chunk) : Bool := decide (c.capacity ≤ c.size)

/-- The chunk with an event after the others, or as it is if it is full. -/
def push (c : Chunk) (e : Event) : Chunk :=
  if c.isFull then c else { c with events := c.events.push e }

/-- The chunk without its events. -/
def reset (c : Chunk) : Chunk := { c with events := #[] }

end Chunk

/-! ## Sessions -/

/-- The place of a collector in its depot. -/
abbrev CollectorId := Nat

/-- The place of a writer's close flag in its depot. -/
abbrev LinkId := Nat

/-- The place of a writer in its depot. -/
abbrev WriterId := Nat

/-- A rented chunk in a session's ledger. -/
structure LedgerEntry where
  chunk : ChunkId
  /-- Whether someone may still write to it. -/
  active : Bool
deriving DecidableEq, Repr, Inhabited

/-- What a session holds and has counted. -/
structure Collector where
  options : Options
  closed : Bool := false
  /-- Events admitted and still held, in a word of 64 bits. -/
  eventCount : UInt64 := 0
  chunkCount : Nat := 0
  losses : Losses := {}
  /-- Rented chunks, the oldest first. -/
  ledger : List LedgerEntry := []
  /-- The close flags of registered writers. -/
  writers : List LinkId := []
  threadNames : Table String := ∅
deriving Inhabited

/-- Write access to a chunk, or read access, as handed out. -/
structure Holding where
  chunk : ChunkId
  /-- Whether it was not given back yet. -/
  held : Bool := true
deriving DecidableEq, Repr, Inhabited

/-- A thread's way into a session. -/
structure Writer where
  /-- The session it writes to, none once it is detached. -/
  collector : Option CollectorId
  link : LinkId
  /-- The chunk it is filling. -/
  chunk : Option ChunkId := none
  thread : Int
  /-- The place its next event takes among the events of the thread. -/
  sequence : Int := 0
  screen : Screen
deriving Inhabited

/-! ## What is told -/

/-- What happened, for the log and for those who asked to be told. -/
inductive Notice where
  /-- A new pool of chunks of some capacity. -/
  | poolOpened (capacity : Nat)
  /-- No chunk was free, so one was made. -/
  | chunkMade (number capacity : Nat)
  /-- The oldest chunk of a session that no one writes to was given up, with
  the events in it. -/
  | chunkEvicted (collector : CollectorId) (events : Array Event)
  /-- A session's chunks were copied out. -/
  | frozen (chunks recycled : Nat)
  /-- A session's first overflow; `told` if someone asked to be told. -/
  | overflow (reason : Reason) (policy : Policy) (told : Bool)
  | sessionStarted (version capacity maxEvents maxChunks : Nat) (policy : Policy)
  | sessionStopped (version events chunks writers : Nat) (losses : Losses)
deriving DecidableEq, Repr

/-! ## The depot -/

/-- A pool of chunks and everyone who refers to them. -/
structure Depot where
  /-- The capacity of the chunks it hands out. -/
  capacity : Nat
  /-- Every chunk there ever was, by identity. -/
  chunks : Array Chunk := #[]
  /-- Chunks for use, the last returned first. -/
  free : List ChunkId := []
  /-- How often no chunk was free. -/
  allocated : Nat := 0
  collectors : Array Collector := #[]
  /-- Write access handed out. -/
  rentals : Array Holding := #[]
  /-- Read access handed out. -/
  shares : Array Holding := #[]
  /-- Whether each writer's close flag is up. -/
  links : Array Bool := #[]
  /-- Writers, none in the place of one that was dropped. -/
  writers : Array (Option Writer) := #[]
  /-- What happened, in order. -/
  journal : Array Notice := #[]

namespace Depot

/-- A depot that hands out chunks of some capacity, one event at least. -/
def ofCapacity (capacity : Nat) : Depot := { capacity := max capacity 1 }

instance : Inhabited Depot := ⟨ofCapacity 1⟩

/-! ## Looking up and writing back -/

/-- A chunk. -/
def chunk (d : Depot) (c : ChunkId) : Chunk := d.chunks[c]?.getD default

/-- A collector. -/
def collector (d : Depot) (k : CollectorId) : Collector := d.collectors[k]?.getD default

/-- A writer that was not dropped. -/
def writer? (d : Depot) (w : WriterId) : Option Writer := d.writers[w]?.join

/-- Whether a writer's close flag is up. -/
def isLinkClosed (d : Depot) (l : LinkId) : Bool := d.links[l]?.getD true

/-- Changes a chunk. -/
def modifyChunk (d : Depot) (c : ChunkId) (f : Chunk → Chunk) : Depot :=
  { d with chunks := d.chunks.modify c f }

/-- Changes a collector. -/
def modifyCollector (d : Depot) (k : CollectorId) (f : Collector → Collector) : Depot :=
  { d with collectors := d.collectors.modify k f }

/-- Changes a writer that was not dropped. -/
def modifyWriter (d : Depot) (w : WriterId) (f : Writer → Writer) : Depot :=
  { d with writers := d.writers.modify w (·.map f) }

/-- Notes what happened. -/
def note (d : Depot) (n : Notice) : Depot := { d with journal := d.journal.push n }

/-- A new session under some options. -/
def newCollector (d : Depot) (o : Options) : CollectorId × Depot :=
  (d.collectors.size, { d with collectors := d.collectors.push { options := o } })

/-! ## References -/

/-- How many of some holdings are of a chunk and not given back. -/
def heldIn (holdings : Array Holding) (c : ChunkId) : Nat :=
  holdings.countP fun h => h.held && h.chunk == c

/-- How many entries of a chunk the ledgers of some collectors have. -/
def entriesOf (c : ChunkId) : List Collector → Nat
  | [] => 0
  | k :: rest => k.ledger.countP (·.chunk == c) + entriesOf c rest

/-- How many refer to a chunk: the free list, ledgers, rentals, shares and
writers. -/
def references (d : Depot) (c : ChunkId) : Nat :=
  d.free.count c
    + entriesOf c d.collectors.toList
    + heldIn d.rentals c + heldIn d.shares c
    + d.writers.countP fun w => w.any (·.chunk == some c)

end Depot

end EventTrace
