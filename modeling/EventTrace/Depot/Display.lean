import EventTrace.Depot.Writing
import EventTrace.Text.Record
/-!
# Depot — as shown to a person

What a depot's parts are shown as, and the log lines of what happened in it.
-/

namespace EventTrace

/-! ## Parts -/

/-- A chunk as shown to a person. -/
def Chunk.describe (c : Chunk) : String :=
  Text.record "Chunk" [("len", toString c.size), ("capacity", toString c.capacity)]

/-- A pool of chunks as shown to a person. -/
def Depot.describe (d : Depot) : String :=
  Text.openRecord "ChunkPool"
    [("capacity", toString d.capacity), ("allocated", toString d.allocated)]

namespace Collector

/-- A session's counts as shown to a person. -/
def describeCounts (k : Collector) : String :=
  Text.record "CollectorStats" [
    ("event_count", toString k.eventCount.toNat),
    ("chunk_count", toString k.chunkCount),
    ("dropped_events", toString k.losses.droppedEvents),
    ("dropped_chunks", toString k.losses.droppedChunks),
    ("sampled_out_events", toString k.losses.sampledOut),
    ("rate_limited_events", toString k.losses.rateLimited),
    ("overflowed", toString k.losses.overflowed)]

/-- A session as shown to a person. -/
def describe (k : Collector) : String :=
  Text.openRecord "SessionCollector"
    [("closed", toString k.closed), ("stats", k.describeCounts)]

end Collector

/-- A writer as shown to a person. -/
def Depot.describeWriter (d : Depot) (w : Writer) : String :=
  Text.openRecord "ThreadWriter" [
    ("thread_id", toString w.thread),
    ("sequence", toString w.sequence),
    ("closed", toString (d.isWriterClosed w))]

/-! ## Log lines -/

/-- How much a log line matters. -/
inductive Level where
  | debug
  | info
  | warn
deriving DecidableEq, Repr

namespace Level

/-- The name of a level. -/
def name : Level → String
  | debug => "DEBUG"
  | info => "INFO"
  | warn => "WARN"

end Level

namespace Notice

/-- How much a notice matters. -/
def level : Notice → Level
  | overflow .. => .warn
  | sessionStarted .. | sessionStopped .. => .info
  | _ => .debug

/-- What a notice says. -/
def text : Notice → String
  | poolOpened capacity => s!"creating chunk pool for capacity {capacity}"
  | chunkMade number capacity =>
    s!"chunk pool allocated chunk #{number} (capacity {capacity})"
  | chunkEvicted _ events => s!"evicted oldest chunk ({events.size} events)"
  | frozen chunks recycled => s!"froze {chunks} chunks, recycled {recycled}"
  | overflow reason policy _ =>
    s!"trace session overflow: {reason.title} reached, applying {policy.title}"
  | sessionStarted version capacity maxEvents maxChunks policy =>
    s!"trace session {version} started (chunk capacity {capacity}, max events {maxEvents}, " ++
      s!"max chunks {maxChunks}, policy {policy.title})"
  | sessionStopped version events chunks writers losses =>
    s!"trace session {version} stopped: {events} events in {chunks} chunks from {writers} " ++
      s!"threads, {losses.droppedEvents} dropped, {losses.sampledOut} sampled out, " ++
      s!"{losses.rateLimited} rate limited"

end Notice

end EventTrace
