import EventTrace.Capture.State
import EventTrace.Depot.Freezing
import EventTrace.Recording.Basic
/-!
# Capture — starting and stopping

A start needs options that can work and no session running; a stop needs a
session. Either one that fails leaves the process as it was. A stop closes
the session and its writers, copies the chunks out and hands over the
recording; writers of the session that threads still keep are of no more
use, and let their chunks go when the thread records again or ends.
-/

namespace EventTrace

/-- Why a session cannot be started or stopped. -/
inductive CaptureError where
  | alreadyRunning
  | notRunning
  | invalidOptions (cause : OptionsError)
deriving DecidableEq, Repr

namespace CaptureError

/-- What is said of the error. -/
def message : CaptureError → String
  | alreadyRunning => "Trace session already running"
  | notRunning => "Trace session is not running"
  | invalidOptions cause => "Invalid session options: " ++ cause.message

end CaptureError

namespace Capture

/-- The process with a depot for chunks of some capacity: the one it has, if
that fits. Another one starts without chunks, and the writers that threads
keep, all of closed sessions by then, go with the old one. -/
def withDepotFor (c : Capture) (capacity : Nat) : Capture :=
  if c.depot.capacity = capacity then c
  else
    let opened := { Depot.ofCapacity capacity with journal := c.depot.journal }
    { c with
      depot := opened.note (.poolOpened capacity)
      slots := c.slots.map fun s => { s with writer := none } }

/-- Starts a session at some time. -/
def start (c : Capture) (o : Options) (now : Int) : Except CaptureError Capture :=
  match o.validate with
  | .error cause => .error (.invalidOptions cause)
  | .ok () =>
    if c.running then .error .alreadyRunning
    else
      let capacity := o.effectiveChunkCapacity
      let c := c.withDepotFor capacity
      let made := c.depot.newCollector o
      let version := c.version + 1
      .ok { c with
        running := true
        version
        lastFlow := noFlow
        session := some { version, collector := made.1, options := o, startTime := now }
        depot := made.2.note
          (.sessionStarted version capacity o.maxTotalEvents o.maxTotalChunks o.policy) }

/-- The recording of a session that was frozen at some time. -/
def recordingOf (live : LiveSession) (k : Collector) (chunks : List (List Event)) (now : Int) :
    Recording where
  chunks := chunks
  startTime := live.startTime
  endTime := now
  options := live.options
  threadNames := k.threadNames
  losses := k.losses

/-- Stops the session at some time: its recording, and the process after
it. -/
def stop (c : Capture) (now : Int) : Except CaptureError (Recording × Capture) :=
  match c.running, c.session with
  | true, some live =>
    let closed := c.depot.close live.collector
    let (writers, closed) := closed.closeWriters live.collector
    let (chunks, frozen) := closed.freeze live.collector
    let recording := recordingOf live (frozen.collector live.collector) chunks now
    let depot := frozen.note (.sessionStopped live.version recording.eventCount
      recording.chunkCount writers recording.losses)
    .ok (recording, { c with running := false, session := none, depot })
  | _, _ => .error .notRunning

end Capture

end EventTrace
