import EventTrace.Recording.Basic
/-!
# Merge — one ordered stream from many chunks

A reading in time order keeps a queue of cursors, one for every chunk that
has an event left. A cursor knows its chunk, the place of the chunk's next
event and that event's key. `next?` is one step: the least cursor leaves the
queue, the event it stands at is handed out, and a cursor at the chunk's
following event takes its place, if there is one. Cursors compare by key
first, so that of equal keys the chunk further to the front goes first.

`remaining` is how many steps are left, and `toList` is the rest of the
stream.
-/

namespace EventTrace

/-! ## Cursors -/

/-- How far the reading of one chunk has come. -/
structure Cursor where
  /-- The key of the chunk's next event. -/
  key : Key
  /-- The place of the chunk. -/
  chunk : Nat
  /-- The place of the next event in the chunk. -/
  index : Nat
deriving DecidableEq, Repr, Inhabited

namespace Cursor

/-- Cursors compare by key, then by the place they stand at. -/
instance : Ord Cursor where
  compare a b :=
    (compare a.key b.key).then <| (compare a.chunk b.chunk).then (compare a.index b.index)

/-- Whether one cursor goes strictly before another. -/
def before (a b : Cursor) : Bool := compare a b == .lt

/-- The least cursor of a queue, and the others. -/
def takeLeast : List Cursor → Option (Cursor × List Cursor)
  | [] => none
  | c :: queue =>
    match takeLeast queue with
    | none => some (c, [])
    | some (least, others) =>
      if least.before c then some (least, c :: others) else some (c, queue)

end Cursor

/-! ## A reading under way -/

/-- A reading of chunks in time order. -/
structure Merge where
  chunks : List (List Event)
  /-- The cursors of the chunks that have an event left. -/
  queue : List Cursor
deriving DecidableEq, Repr, Inhabited

namespace Merge

/-- The event at a place of a chunk. -/
def eventAt? (chunks : List (List Event)) (chunk index : Nat) : Option Event :=
  chunks[chunk]?.bind fun events => events[index]?

/-- The cursor at a place of a chunk, if there is an event. -/
def cursorAt? (chunks : List (List Event)) (chunk index : Nat) : Option Cursor :=
  (eventAt? chunks chunk index).map fun e => ⟨e.key, chunk, index⟩

/-- A reading before its first step. -/
def start (chunks : List (List Event)) : Merge where
  chunks := chunks
  queue := (List.range chunks.length).filterMap fun i => cursorAt? chunks i 0

/-- The queue with a chunk's cursor moved on to its next event. -/
def advance (m : Merge) (c : Cursor) (others : List Cursor) : Merge :=
  { m with queue := (cursorAt? m.chunks c.chunk (c.index + 1)).toList ++ others }

/-- The next event of the stream, and the reading after it. -/
def next? (m : Merge) : Option (Event × Merge) :=
  (Cursor.takeLeast m.queue).bind fun (c, others) =>
    (eventAt? m.chunks c.chunk c.index).map fun e => (e, m.advance c others)

/-- The number of events a cursor has before it. -/
def ahead (m : Merge) (c : Cursor) : Nat := (m.chunks.getD c.chunk []).length - c.index

/-- The number of events still to come. -/
def remaining (m : Merge) : Nat := m.queue.foldr (fun c n => m.ahead c + n) 0

/-! ## The stream -/

/-- The next events of the stream, no more than a given number. -/
def take : Nat → Merge → List Event
  | 0, _ => []
  | n + 1, m =>
    match m.next? with
    | none => []
    | some (e, m') => e :: take n m'

/-- The rest of the stream. -/
def toList (m : Merge) : List Event := take m.remaining m

end Merge

namespace Recording

/-- A reading of the recording in time order, before its first step. -/
def merge (r : Recording) : Merge := .start r.chunks

/-- The events by timestamp, then rank, then thread, then sequence. -/
def sortedEvents (r : Recording) : List Event := r.merge.toList

end Recording

end EventTrace
