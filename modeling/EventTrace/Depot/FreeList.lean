import EventTrace.Depot.State
/-!
# Depot — the free list

The chunk returned last is the first to be handed out again. A chunk is
taken back only if no one else refers to it and it has the depot's capacity,
and it is emptied then; a chunk is made only when none is free.
-/

namespace EventTrace

namespace Depot

/-- Takes an empty chunk, one returned earlier if there is any. Whoever takes
it has to hold it. -/
def take (d : Depot) : ChunkId × Depot :=
  match d.free with
  | c :: rest => (c, { d with free := rest })
  | [] =>
    let made :=
      { d with chunks := d.chunks.push (.ofCapacity d.capacity), allocated := d.allocated + 1 }
    (d.chunks.size, made.note (.chunkMade (d.allocated + 1) d.capacity))

/-- Offers a chunk that its last holder let go: whether it was taken back. -/
def giveBack (d : Depot) (c : ChunkId) : Bool × Depot :=
  if (d.chunk c).capacity = d.capacity ∧ d.references c = 0 then
    let emptied := d.modifyChunk c Chunk.reset
    (true, { emptied with free := c :: emptied.free })
  else (false, d)

/-! ## Shares -/

/-- The place of a share in its depot. -/
abbrev ShareId := Nat

/-- The chunk of a share that was not given back. -/
def share? (d : Depot) (s : ShareId) : Option ChunkId :=
  d.shares[s]?.bind fun h => if h.held then some h.chunk else none

/-- A new share of a chunk. -/
def addShare (d : Depot) (c : ChunkId) : ShareId × Depot :=
  (d.shares.size, { d with shares := d.shares.push { chunk := c } })

/-- Gives a share back without offering its chunk. -/
def dropShare (d : Depot) (s : ShareId) : Depot :=
  { d with shares := d.shares.modify s fun h => { h with held := false } }

/-- A share of a chunk from the free list, or of one made for it. -/
def takeShare (d : Depot) : ShareId × Depot :=
  let taken := d.take
  taken.2.addShare taken.1

/-- A share of a chunk that is no business of the free list. -/
def makeShare (d : Depot) (capacity : Nat) : ShareId × Depot :=
  let made := { d with chunks := d.chunks.push (.ofCapacity capacity) }
  made.addShare d.chunks.size

/-- Empties the chunk of a share, if no one else refers to it: whether it was
emptied. -/
def resetShare (d : Depot) (s : ShareId) : Bool × Depot :=
  match d.share? s with
  | some c => if d.references c = 1 then (true, d.modifyChunk c Chunk.reset) else (false, d)
  | none => (false, d)

/-- Gives a share back and offers its chunk: whether it was taken back. -/
def returnShare (d : Depot) (s : ShareId) : Bool × Depot :=
  match d.share? s with
  | some c => (d.dropShare s).giveBack c
  | none => (false, d)

end Depot

end EventTrace
