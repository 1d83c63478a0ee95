import EventTrace.Ranking
import EventTrace.Recording.Merge
/-!
# Flows — chains of links across threads

The links of a flow are its events in time order, whatever threads they were
recorded on. A flow makes a chain if one of its links is an end that comes
after a start; the chain runs from the first start to the last end, and the
links outside it are left out. Every link of a chain but the last is a step,
which lasts until the next link.
-/

namespace EventTrace

/-! ## Chains -/

/-- A flow from its first start to its last end. -/
structure FlowChain where
  /-- The first start. -/
  first : Event
  /-- The links in between. -/
  middle : List Event
  /-- The last end. -/
  last : Event
deriving DecidableEq, Repr

namespace FlowChain

/-- The chain that the links of a flow make, if they make one. -/
def ofLinks? (links : List Event) : Option FlowChain :=
  match links.dropWhile (·.kind != .flowStart) with
  | [] => none
  | first :: later =>
    match later.reverse.dropWhile (·.kind != .flowEnd) with
    | [] => none
    | last :: middle => some ⟨first, middle.reverse, last⟩

/-- The links of a chain, in order. -/
def links (c : FlowChain) : List Event := c.first :: c.middle ++ [c.last]

/-- The ticks from start to end. -/
def ticks (c : FlowChain) : Int := Ticks.wrap (c.last.timestamp - c.first.timestamp)

/-- Each step with the link that follows it. -/
def steps (c : FlowChain) : List (Event × Event) :=
  (c.first :: c.middle).zip (c.middle ++ [c.last])

end FlowChain

namespace Recording

/-- The links of every flow, each flow's in time order. -/
def flowLinks (r : Recording) : Table (Array Event) :=
  (r.sortedEvents.filter fun e => e.flow != noFlow && e.kind.isFlow).foldl
    (fun t e => t.alter e.flow fun list => (list.getD #[]).push e) ∅

/-- The chains of a recording by flow, most ticks first. -/
def flowChains (r : Recording) : List (Int × FlowChain) :=
  rankBy (fun row => (row.2.ticks, row.1)) <|
    r.flowLinks.rows.filterMap fun row => (FlowChain.ofLinks? row.2.toList).map (row.1, ·)

end Recording

/-! ## The report -/

/-- A step as reported. -/
structure FlowStep where
  id : Int
  kind : Kind
  thread : Int
  timestamp : Int
  /-- Milliseconds until the next link. -/
  durationMs : Float

/-- A chain as reported. -/
structure FlowReport where
  flow : Int
  /-- The id of the start. -/
  id : Int
  name : String
  startTime : Int
  endTime : Int
  totalMs : Float
  steps : List FlowStep

namespace FlowReport

/-- The threads a chain's steps were recorded on, in the order in which it
reached them. -/
def threads (f : FlowReport) : List Int := (f.steps.map FlowStep.thread).eraseDups

end FlowReport

namespace Recording

/-- A step as reported. -/
def showStep (r : Recording) (step : Event × Event) : FlowStep where
  id := step.1.id
  kind := step.1.kind
  thread := step.1.thread
  timestamp := step.1.timestamp
  durationMs := r.rate.toMillis (max 0 (Ticks.wrap (step.2.timestamp - step.1.timestamp)))

/-- A chain as reported. -/
def showChain (r : Recording) (row : Int × FlowChain) : FlowReport where
  flow := row.1
  id := row.2.first.id
  name := r.nameOf row.2.first.id
  startTime := row.2.first.timestamp
  endTime := row.2.last.timestamp
  totalMs := r.rate.toMillis row.2.ticks
  steps := row.2.steps.map r.showStep

/-- The flow chains of a recording, most time first; with a limit, no more
than so many. -/
def flows (r : Recording) (limit : Option Nat) : List FlowReport :=
  let chains := r.flowChains.map r.showChain
  match limit with
  | none => chains
  | some n => chains.take n

end Recording

end EventTrace
