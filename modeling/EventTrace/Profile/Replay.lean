import EventTrace.Nesting
import EventTrace.Profile.Hotspots
import EventTrace.Profile.Node
/-!
# Profile — replaying scopes into trees

Each thread's begins and ends are replayed against its own frames. A scope
that closes becomes a node under the scope below it, or a root of its
thread; its exclusive ticks are its inclusive ticks without those of the
nodes it holds. A frame that ends without a node of its own (abandoned at a
mismatch, closed before it began, or left open at the end) hands the nodes
it holds down to the frame below, so their time stays in the tree.
`ThreadState.step` is the whole of what an event does to its thread;
`Replay.apply` only files the outcome.
-/

namespace EventTrace

/-! ## One thread -/

/-- The nodes an open frame holds. -/
structure Pending where
  children : List Node := []
  /-- The sum of the inclusive ticks that were handed to the frame. -/
  ticks : Int := 0
deriving Repr, Inhabited

namespace Pending

/-- Takes over what another frame holds. -/
def adopt (p other : Pending) : Pending where
  children := Node.addAllTo other.children p.children
  ticks := Ticks.wrap (p.ticks + other.ticks)

/-- A single node, to be handed down. -/
def ofNode (node : Node) : Pending := ⟨[node], node.inclusive⟩

end Pending

/-- The frames and finished trees of a thread. -/
structure ThreadState where
  /-- Open frames, the innermost first. -/
  frames : List (Frame Pending) := []
  /-- Nodes with no frame below them. -/
  roots : List Node := []
deriving Repr, Inhabited

/-- What an event brought to light on its thread. -/
structure Outcome where
  anomalies : Anomalies := {}
  mismatch : Option Mismatch := none
  closed : Option ClosedScope := none
deriving DecidableEq, Repr, Inhabited

namespace ThreadState

/-- Gives finished nodes to the innermost open frame, or to the roots. -/
def handDown (s : ThreadState) (p : Pending) : ThreadState :=
  match s.frames with
  | [] => { s with roots := Node.addAllTo p.children s.roots }
  | top :: below => { s with frames := { top with data := top.data.adopt p } :: below }

/-- Closes a matched frame at some time: what it abandoned comes to it, and
it becomes a node unless its ticks are less than zero. -/
def finish (s : ThreadState) (e : Event) (m : Match Pending) : ThreadState × Outcome :=
  let held := m.abandoned.foldl (fun p lost => p.adopt lost.data) m.frame.data
  let inclusive := Ticks.wrap (e.timestamp - m.frame.start)
  let below : ThreadState := { s with frames := m.below }
  if inclusive < 0 then (below.handDown held, { anomalies := { invalidDurations := 1 } })
  else
    let exclusive := max 0 (Ticks.wrap (inclusive - held.ticks))
    (below.handDown (.ofNode ⟨m.frame.id, 1, inclusive, exclusive, held.children⟩),
      { closed := some ⟨m.frame.id, e.thread, inclusive, exclusive⟩ })

/-- What an end does to its thread. -/
def close (strict : Bool) (s : ThreadState) (e : Event) : ThreadState × Outcome :=
  let closing := Nesting.close strict e.id s.frames
  let mismatch := closing.expected.map fun expected => ⟨e.thread, expected, e.id, e.timestamp⟩
  match closing.matched with
  | none => (s, { anomalies := closing.anomalies, mismatch })
  | some m =>
    let done := s.finish e m
    (done.1, { done.2 with anomalies := closing.anomalies + done.2.anomalies, mismatch })

/-- What an event does to its thread: a begin opens a frame, an end closes
one, and any other kind does nothing. -/
def step (strict : Bool) (s : ThreadState) (e : Event) : ThreadState × Outcome :=
  match e.kind with
  | .scopeBegin => ({ s with frames := ⟨e.id, e.timestamp, {}⟩ :: s.frames }, {})
  | .scopeEnd => s.close strict e
  | _ => (s, {})

/-- The finished trees at the end of the stream: frames still open hand
their nodes to the roots, the outermost first. -/
def trees (s : ThreadState) : List Node :=
  s.frames.reverse.foldl (fun roots frame => Node.addAllTo frame.data.children roots) s.roots

end ThreadState

/-! ## All threads -/

/-- A replay under way. -/
structure Replay where
  threads : Table ThreadState := ∅
  anomalies : Anomalies := {}
  hotspots : Hotspots := {}
  /-- Mismatched ends, in the order of the events. -/
  mismatches : Array Mismatch := #[]
  /-- Begins and ends replayed. -/
  scopeEvents : Nat := 0
deriving Inhabited

namespace Replay

/-- Replays one event on its thread and files the outcome. -/
def apply (strict : Bool) (r : Replay) (e : Event) : Replay :=
  let stepped := ((r.threads.get? e.thread).getD {}).step strict e
  { threads := r.threads.insert e.thread stepped.1
    anomalies := r.anomalies + stepped.2.anomalies
    hotspots := stepped.2.closed.elim r.hotspots r.hotspots.record
    mismatches := stepped.2.mismatch.elim r.mismatches r.mismatches.push
    scopeEvents := if e.kind.isScope then r.scopeEvents + 1 else r.scopeEvents }

/-- The replay of some events. -/
def run (strict : Bool) (events : List Event) : Replay := events.foldl (apply strict) {}

/-- The tree of each thread, by ascending thread. -/
def threadTrees (r : Replay) : List (Int × Node) :=
  r.threads.sorted.map fun row => (row.1, Node.root row.2.trees)

/-- The tree of all threads together. -/
def globalTree (r : Replay) : Node :=
  Node.root (r.threadTrees.foldl (fun merged tree => Node.addAllTo tree.2.children merged) [])

/-- The damage to the nesting, frames left open included. -/
def totalAnomalies (r : Replay) : Anomalies :=
  r.threads.values.foldl (fun sum s => sum + Nesting.leftOpen s.frames) r.anomalies

end Replay

end EventTrace
