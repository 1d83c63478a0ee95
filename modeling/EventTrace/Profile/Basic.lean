import EventTrace.Profile.Replay
import EventTrace.Recording.Basic
/-!
# Profile — where the time of a recording went

A profile shows a recording as call trees: one for each thread and one for
all threads together, with the damage to the nesting and the hotspots of the
same scopes. Times are in milliseconds; siblings and rows stand with the
most inclusive time first.
-/

namespace EventTrace

/-! ## Options -/

/-- How to profile a recording. -/
structure ProfileOptions where
  /-- Drop mismatched ends instead of looking for the scope they close. -/
  strict : Bool := false
  /-- One tree for each thread, or a single one as thread zero. -/
  byThread : Bool := true
  /-- Replay the events of this thread only. -/
  onlyThread : Option Int := none
deriving DecidableEq, Repr, Inhabited

/-! ## Trees as reported -/

/-- A node as reported. -/
structure CallNode where
  id : Int
  name : String
  count : Nat
  inclusiveMs : Float
  exclusiveMs : Float
  children : List CallNode

namespace CallNode

instance : Inhabited CallNode := ⟨⟨0, "", 0, 0, 0, []⟩⟩

mutual

/-- The first node of an id, a node before its children and these in order. -/
def find? (wanted : Int) : CallNode → Option CallNode
  | ⟨id, name, count, inclusiveMs, exclusiveMs, children⟩ =>
    if id = wanted then some ⟨id, name, count, inclusiveMs, exclusiveMs, children⟩
    else findIn? wanted children

/-- The first node of an id in a list of trees. -/
def findIn? (wanted : Int) : List CallNode → Option CallNode
  | [] => none
  | node :: rest => (find? wanted node).or (findIn? wanted rest)

end

/-- The child of an id. -/
def child? (node : CallNode) (wanted : Int) : Option CallNode :=
  node.children.find? (·.id == wanted)

end CallNode

namespace Node

mutual

/-- A node as reported, its children in the order given. -/
def shown (rate : TickRate) (nameOf : Int → String) : Node → CallNode
  | ⟨id, count, inclusive, exclusive, children⟩ =>
    ⟨id, nameOf id, count, rate.toMillis inclusive, rate.toMillis exclusive,
      shownAll rate nameOf children⟩

/-- Nodes as reported. -/
def shownAll (rate : TickRate) (nameOf : Int → String) : List Node → List CallNode
  | [] => []
  | node :: rest => shown rate nameOf node :: shownAll rate nameOf rest

end

end Node

/-- The name roots are shown by. -/
def rootName : String := "(root)"

/-- A thread and its tree. -/
structure ThreadTrace where
  thread : Int
  name : Option String
  root : CallNode
deriving Inhabited

/-- A profiled recording. -/
structure Profile where
  durationMs : Float
  /-- Begins and ends replayed. -/
  scopeEvents : Nat
  /-- Threads with an event of any kind. -/
  threadsSeen : Nat
  anomalies : Anomalies
  losses : Losses
  /-- By ascending thread. -/
  threads : List ThreadTrace
  global : CallNode
  hotspots : List HotspotRow
  /-- The mismatched ends that were told of, in the order of the events. -/
  told : List Mismatch

namespace Profile

/-- The trace of a thread. -/
def thread? (p : Profile) (thread : Int) : Option ThreadTrace :=
  p.threads.find? (·.thread == thread)

end Profile

namespace Recording

/-- The mismatched ends a recording's options ask to be told of. -/
def told (r : Recording) (mismatches : Array Mismatch) : List Mismatch :=
  if r.options.tellsMismatch then mismatches.toList else []

/-- The events a profile replays. -/
def profiledEvents (r : Recording) (o : ProfileOptions) : List Event :=
  match o.onlyThread with
  | none => r.events
  | some thread => r.events.filter (·.thread == thread)

/-- A root as reported. -/
def showRoot (r : Recording) (root : Node) : CallNode :=
  { root.ranked.shown r.rate r.nameOf with name := rootName }

/-- The profile of a recording. -/
def profile (r : Recording) (o : ProfileOptions) : Profile :=
  let replay := Replay.run o.strict (r.profiledEvents o)
  let trees := replay.threadTrees
  let global := r.showRoot replay.globalTree
  { durationMs := r.durationMs
    scopeEvents := replay.scopeEvents
    threadsSeen := trees.length
    anomalies := replay.totalAnomalies
    losses := r.losses
    threads :=
      if o.byThread then
        trees.map fun tree => ⟨tree.1, r.threadNames.get? tree.1, r.showRoot tree.2⟩
      else [⟨0, none, global⟩]
    global
    hotspots := replay.hotspots.report r.rate r.options.metadata
    told := r.told replay.mismatches }

/-- The hotspots of a recording over all threads. -/
def hotspots (r : Recording) : List HotspotRow := (r.profile {}).hotspots

end Recording

end EventTrace
