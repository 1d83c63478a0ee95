import EventTrace.Depot.FreeList
import EventTrace.Text.Blank
/-!
# Depot — what a session admits and holds

A collector decides what its session holds. Chunks and events are admitted
against two caps; at a cap, the policy refuses, gives up the oldest chunk
that no one writes to, or closes the session. The first overflow of a cap or
a rate raises a flag, is noted once, and is never noted again. Once it is
closed a session admits nothing, and a chunk that comes back to it goes to
the free list.
-/

namespace EventTrace

namespace Collector

/-- Whether the chunk cap leaves room for one more. -/
def hasChunkRoom (k : Collector) : Bool :=
  k.options.maxTotalChunks == 0 || decide (k.chunkCount < k.options.maxTotalChunks)

/-- Whether the event cap leaves room for one more. -/
def hasEventRoom (k : Collector) : Bool :=
  k.options.maxTotalEvents == 0 || decide (k.eventCount.toNat < k.options.maxTotalEvents)

/-- Enters a chunk that someone writes to as the youngest. -/
def enter (k : Collector) (c : ChunkId) : Collector :=
  { k with chunkCount := k.chunkCount + 1, ledger := k.ledger ++ [⟨c, true⟩] }

/-- Counts one event more. -/
def countEvent (k : Collector) : Collector := { k with eventCount := k.eventCount + 1 }

/-- Gives up a chunk of so many events, which leaves the rest of the ledger. -/
def giveUp (k : Collector) (rest : List LedgerEntry) (events : Nat) : Collector :=
  { k with
    ledger := rest
    eventCount := k.eventCount - UInt64.ofNat events
    chunkCount := k.chunkCount - 1
    losses := { k.losses with
      droppedEvents := k.losses.droppedEvents + events
      droppedChunks := k.losses.droppedChunks + 1 } }

/-- Marks the oldest entry of a chunk as written to by no one. -/
def markIdle (c : ChunkId) : List LedgerEntry → List LedgerEntry
  | [] => []
  | entry :: rest =>
    if entry.chunk = c then { entry with active := false } :: rest else entry :: markIdle c rest

/-- The oldest entry that no one writes to, and the ledger without it. -/
def oldestIdle? : List LedgerEntry → Option (ChunkId × List LedgerEntry)
  | [] => none
  | entry :: rest =>
    if entry.active then (oldestIdle? rest).map fun p => (p.1, entry :: p.2)
    else some (entry.chunk, rest)

end Collector

namespace Depot

/-! ## Tallies -/

/-- Notes an overflow, if it is the session's first. -/
def signal (d : Depot) (k : CollectorId) (reason : Reason) : Depot :=
  let o := (d.collector k).options
  if (d.collector k).losses.overflowed then d
  else
    (d.modifyCollector k fun s => { s with losses := { s.losses with overflowed := true } }).note
      (.overflow reason o.policy o.tellsOverflow)

/-- Counts an event lost to a cap. -/
def recordDropped (d : Depot) (k : CollectorId) (reason : Reason) : Depot :=
  (d.modifyCollector k fun s =>
    { s with losses := { s.losses with droppedEvents := s.losses.droppedEvents + 1 } }).signal
      k reason

/-- Counts an event left out by sampling. -/
def recordSampledOut (d : Depot) (k : CollectorId) : Depot :=
  d.modifyCollector k fun s =>
    { s with losses := { s.losses with sampledOut := s.losses.sampledOut + 1 } }

/-- Counts an event beyond a thread's rate. A rate never closes a session,
since it is a thread's and not the session's. -/
def recordRateLimited (d : Depot) (k : CollectorId) : Depot :=
  (d.modifyCollector k fun s =>
    { s with losses := { s.losses with rateLimited := s.losses.rateLimited + 1 } }).signal
      k .rateLimit

/-- Closes a session: it admits nothing more. -/
def close (d : Depot) (k : CollectorId) : Depot :=
  d.modifyCollector k fun s => { s with closed := true }

/-! ## Eviction -/

/-- Gives up the oldest chunk that no one writes to, and its events with
it; none if every chunk is written to. -/
def evictOldest? (d : Depot) (k : CollectorId) : Option Depot :=
  match Collector.oldestIdle? (d.collector k).ledger with
  | none => none
  | some (c, rest) =>
    let chunk := d.chunk c
    let evicted := d.modifyCollector k (·.giveUp rest chunk.size)
    some ((evicted.note (.chunkEvicted k chunk.events)).giveBack c).2

/-- Gives up chunks, no more than so many, until the chunk cap leaves room
for one: whether it does. -/
def makeChunkRoom : Nat → Depot → CollectorId → Bool × Depot
  | 0, d, _ => (false, d)
  | n + 1, d, k =>
    match d.evictOldest? k with
    | none => (false, d)
    | some evicted =>
      if (evicted.collector k).hasChunkRoom then (true, evicted) else makeChunkRoom n evicted k

/-- Gives up chunks until the event cap leaves room, no more than so many. -/
def makeEventRoom : Nat → Depot → CollectorId → Depot
  | 0, d, _ => d
  | n + 1, d, k =>
    if (d.collector k).hasEventRoom then d
    else match d.evictOldest? k with
      | none => d
      | some evicted => makeEventRoom n evicted k

/-! ## Chunks -/

/-- Takes a chunk and enters it. -/
def enterChunk (d : Depot) (k : CollectorId) : ChunkId × Depot :=
  let taken := d.take
  (taken.1, taken.2.modifyCollector k fun s => s.enter taken.1)

/-- A chunk for a session at its chunk cap: only by giving up others, if the
policy says so. -/
def rentAtCap (d : Depot) (k : CollectorId) : Option ChunkId × Depot :=
  match (d.collector k).options.policy with
  | .dropNew => (none, d.signal k .maxTotalChunks)
  | .stopSession => (none, (d.signal k .maxTotalChunks).close k)
  | .dropOldest =>
    match makeChunkRoom (d.collector k).ledger.length d k with
    | (false, thinned) => (none, thinned.signal k .maxTotalChunks)
    | (true, thinned) =>
      let entered := thinned.enterChunk k
      (some entered.1, entered.2.signal k .maxTotalChunks)

/-- A chunk to write to, entered in the ledger; none if the session is closed
or at its chunk cap and the policy makes no room. Whoever rents it has to
hold it. -/
def rentChunk (d : Depot) (k : CollectorId) : Option ChunkId × Depot :=
  if (d.collector k).closed then (none, d)
  else if (d.collector k).hasChunkRoom then
    let entered := d.enterChunk k
    (some entered.1, entered.2)
  else d.rentAtCap k

/-- Marks a chunk of the ledger as written to by no one; it may be given up
from now on. -/
def markIdle (d : Depot) (k : CollectorId) (c : ChunkId) : Depot :=
  d.modifyCollector k fun s => { s with ledger := Collector.markIdle c s.ledger }

/-- Takes a chunk back from the one who wrote to it and let it go: it stays
in the ledger of an open session, and is offered to the free list by a
closed one. -/
def releaseChunk (d : Depot) (k : CollectorId) (c : ChunkId) : Depot :=
  if (d.collector k).closed then (d.giveBack c).2 else d.markIdle k c

/-! ## Events -/

/-- Admits one event against the event cap: whether it may be written. -/
def admitEvent (d : Depot) (k : CollectorId) : Bool × Depot :=
  let s := d.collector k
  if s.closed then (false, d)
  else if s.hasEventRoom then (true, d.modifyCollector k Collector.countEvent)
  else match s.options.policy with
    | .dropNew => (false, d.recordDropped k .maxTotalEvents)
    | .stopSession => (false, (d.recordDropped k .maxTotalEvents).close k)
    | .dropOldest =>
      let thinned := makeEventRoom s.ledger.length d k
      if (thinned.collector k).hasEventRoom then
        (true, (thinned.modifyCollector k Collector.countEvent).signal k .maxTotalEvents)
      else (false, thinned.recordDropped k .maxTotalEvents)

/-! ## Threads and writers -/

/-- Remembers a thread's name, if it shows anything; the first one stays. -/
def nameThread (d : Depot) (k : CollectorId) (thread : Int) (name : String) : Depot :=
  if Text.isBlank name then d
  else d.modifyCollector k fun s =>
    { s with threadNames := s.threadNames.insertIfNew thread name }

/-- A close flag that is down. -/
def newLink (d : Depot) : LinkId × Depot :=
  (d.links.size, { d with links := d.links.push false })

/-- Registers a close flag with a session. -/
def registerLink (d : Depot) (k : CollectorId) (l : LinkId) : Depot :=
  d.modifyCollector k fun s => { s with writers := s.writers ++ [l] }

/-- Raises a close flag. -/
def closeLink (d : Depot) (l : LinkId) : Depot :=
  { d with links := d.links.modify l fun _ => true }

/-- Raises every close flag registered with a session: how many there were.
None stays registered. -/
def closeWriters (d : Depot) (k : CollectorId) : Nat × Depot :=
  let registered := (d.collector k).writers
  let closed := registered.foldl closeLink d
  (registered.length, closed.modifyCollector k fun s => { s with writers := [] })

/-! ## Rentals -/

/-- The place of a rental in its depot. -/
abbrev RentalId := Nat

/-- The chunk of a rental that was not given back. -/
def rental? (d : Depot) (r : RentalId) : Option ChunkId :=
  d.rentals[r]?.bind fun h => if h.held then some h.chunk else none

/-- Rents a chunk of a session. -/
def rent (d : Depot) (k : CollectorId) : Option RentalId × Depot :=
  match d.rentChunk k with
  | (none, d) => (none, d)
  | (some c, d) => (some d.rentals.size, { d with rentals := d.rentals.push { chunk := c } })

/-- Gives a rental back without telling the session. -/
def dropRental (d : Depot) (r : RentalId) : Depot :=
  { d with rentals := d.rentals.modify r fun h => { h with held := false } }

/-- Gives a rental back to a session. -/
def release (d : Depot) (k : CollectorId) (r : RentalId) : Depot :=
  match d.rental? r with
  | some c => (d.dropRental r).releaseChunk k c
  | none => d

/-- Writes an event to a rented chunk: whether there was room. -/
def writeRental (d : Depot) (r : RentalId) (e : Event) : Bool × Depot :=
  match d.rental? r with
  | some c => (!(d.chunk c).isFull, d.modifyChunk c (·.push e))
  | none => (false, d)

/-- Turns write access into read access. -/
def shareRental (d : Depot) (r : RentalId) : Option ShareId × Depot :=
  match d.rental? r with
  | some c =>
    let shared := (d.dropRental r).addShare c
    (some shared.1, shared.2)
  | none => (none, d)

end Depot

end EventTrace
