import EventTrace.Event.Basic
import EventTrace.Losses
import EventTrace.Options.Basic
import EventTrace.Ticks
/-!
# Recording — the frozen result of a capture

A recording owns the events that were kept, chunk by chunk; each chunk holds
events of one thread in the order in which they were recorded. It also knows
its time bounds, its tick rate, the names of threads, the options it was
made under and what was lost. `Recording.ofEvents` makes one from events
already at hand: one chunk for each thread, in the order of the threads'
first events.
-/

namespace EventTrace

/-- A frozen capture. -/
structure Recording where
  chunks : List (List Event)
  startTime : Int
  endTime : Int
  rate : TickRate := .nanoseconds
  options : Options := {}
  threadNames : Table String := ∅
  losses : Losses := {}
deriving Inhabited

namespace Recording

/-! ## From events -/

/-- Events filed by thread, each thread's in their order. -/
def groupByThread (events : List Event) : Table (Array Event) :=
  events.foldl (fun t e => t.alter e.thread fun list => (list.getD #[]).push e) ∅

/-- The earliest and the latest timestamp, both zero if there is none. -/
def timeBounds : List Event → Int × Int
  | [] => (0, 0)
  | e :: rest =>
    rest.foldl (fun bounds e => (min bounds.1 e.timestamp, max bounds.2 e.timestamp))
      (e.timestamp, e.timestamp)

/-- A recording of given events, which must be in recording order within
each thread. -/
def ofEvents (events : List Event) : Recording where
  chunks := (groupByThread events).values.map Array.toList
  startTime := (timeBounds events).1
  endTime := (timeBounds events).2

/-- The recording at another tick rate. -/
def withFrequency (r : Recording) (frequency : Int) : Recording :=
  { r with rate := .ofFrequency frequency }

/-- The recording with a thread's name set. -/
def withThreadName (r : Recording) (thread : Int) (name : String) : Recording :=
  { r with threadNames := r.threadNames.insert thread name }

/-! ## Views -/

/-- The events chunk by chunk, each thread's in recording order. -/
def events (r : Recording) : List Event := r.chunks.flatten

/-- The number of events in some chunks. -/
def countEvents : List (List Event) → Nat
  | [] => 0
  | events :: rest => events.length + countEvents rest

/-- The number of events. -/
def eventCount (r : Recording) : Nat := countEvents r.chunks

/-- The number of chunks. -/
def chunkCount (r : Recording) : Nat := r.chunks.length

/-- The threads with an event, each once, ascending. -/
def threadIds (r : Recording) : List Int :=
  ((r.events.map Event.thread).eraseDups).mergeSort (· ≤ ·)

/-- The ticks from start to end. -/
def duration (r : Recording) : Int := Ticks.wrap (r.endTime - r.startTime)

/-- The milliseconds from start to end. -/
def durationMs (r : Recording) : Float := r.rate.toMillis r.duration

/-- The name an id is shown by. -/
def nameOf (r : Recording) (id : Int) : String := displayName r.options.metadata id

theorem countEvents_eq_length_flatten (chunks : List (List Event)) :
    countEvents chunks = chunks.flatten.length := by
  induction chunks with
  | nil => rfl
  | cons events rest ih => rw [countEvents, ih, List.flatten_cons, List.length_append]

theorem eventCount_eq_length_events (r : Recording) : r.eventCount = r.events.length :=
  countEvents_eq_length_flatten r.chunks

end Recording

end EventTrace
