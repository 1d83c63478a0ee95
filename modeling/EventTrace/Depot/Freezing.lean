import EventTrace.Depot.Writing
/-!
# Depot — copying a session out

Freezing empties a session's ledger. Every chunk with events is copied, the
oldest first, and every chunk is offered to the free list; one that a writer
still holds is not taken back now, but when that writer lets it go.
-/

namespace EventTrace

/-- What freezing has copied and recycled so far. -/
structure Frozen where
  chunks : List (List Event) := []
  recycled : Nat := 0
deriving DecidableEq, Repr, Inhabited

namespace Depot

/-- Copies the chunks of some ledger entries and offers them, an entry
leaving the ledger before its chunk is offered. -/
def freezeEntries (k : CollectorId) : List LedgerEntry → Frozen → Depot → Frozen × Depot
  | [], frozen, d => (frozen, d)
  | entry :: rest, frozen, d =>
    let chunk := d.chunk entry.chunk
    let chunks :=
      if chunk.isEmpty then frozen.chunks else frozen.chunks ++ [chunk.events.toList]
    match (d.modifyCollector k fun s => { s with ledger := rest }).giveBack entry.chunk with
    | (true, d) => freezeEntries k rest ⟨chunks, frozen.recycled + 1⟩ d
    | (false, d) => freezeEntries k rest ⟨chunks, frozen.recycled⟩ d

/-- The events of a session chunk by chunk, with its ledger emptied. -/
def freeze (d : Depot) (k : CollectorId) : List (List Event) × Depot :=
  match freezeEntries k (d.collector k).ledger {} d with
  | (frozen, d) => (frozen.chunks, d.note (.frozen frozen.chunks.length frozen.recycled))

end Depot

end EventTrace
