import EventTrace.Depot.FreeList
/-!
# Depot — the free list as links between chunks

The free list needs no room of its own: each chunk has a link, and the chunks
on the list are linked one to the next, from a head. To take the first chunk,
the whole chain is detached; the first chunk is unlinked, and the rest is put
back in front of what was linked to the head meanwhile. Putting chunks back
means walking to the last of them, so a chain that ran in a circle would be
walked for ever; a walk here gives up after so many steps.
-/

namespace EventTrace

/-- A head, and the link of every chunk. -/
structure FreeChain where
  head : Option ChunkId := none
  next : ChunkId → Option ChunkId := fun _ => none

namespace FreeChain

/-- Sets the link of a chunk. -/
def link (f : FreeChain) (c : ChunkId) (target : Option ChunkId) : FreeChain :=
  { f with next := fun x => if x = c then target else f.next x }

/-- The chunk at which links from a chunk end, none if they do not within so
many steps. -/
def last? (f : FreeChain) : Nat → ChunkId → Option ChunkId
  | 0, _ => none
  | steps + 1, c =>
    match f.next c with
    | none => some c
    | some after => f.last? steps after

/-- Puts chunks that are linked one to the next in front of the others. -/
def push? (f : FreeChain) (steps : Nat) (first : ChunkId) : Option FreeChain :=
  (f.last? steps first).map fun last => { f.link last f.head with head := some first }

/-- Takes the first chunk, if there is one, and unlinks it. -/
def take? (f : FreeChain) (steps : Nat) : Option (Option ChunkId × FreeChain) :=
  match f.head with
  | none => some (none, f)
  | some first =>
    let detached := { f.link first none with head := none }
    match f.next first with
    | none => some (some first, detached)
    | some rest => (detached.push? steps rest).map fun spliced => (some first, spliced)

/-- Puts one chunk in front of the others, whatever it was linked to. -/
def giveBack? (f : FreeChain) (steps : Nat) (c : ChunkId) : Option FreeChain :=
  (f.link c none).push? steps c

/-- The chain after a share was taken of a chunk from it, or one was given back
and its chunk put back; none if a walk did not end within as many steps as
there are chunks. -/
def takeShare? (f : FreeChain) (d : Depot) : Option FreeChain :=
  (f.take? d.chunks.size).map Prod.snd

@[inherit_doc takeShare?]
def returnShare? (f : FreeChain) (d : Depot) (q : Depot.ShareId) : Option FreeChain :=
  match d.share? q with
  | some c => if (d.returnShare q).1 then f.giveBack? d.chunks.size c else some f
  | none => some f

end FreeChain

end EventTrace
