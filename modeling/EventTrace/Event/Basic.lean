/-!
# Event — the record every other part reads

An event says what happened (`Kind`), where (`thread`), when (`timestamp`)
and about what (`id`). Capture fixes no total order among threads; a
consumer that needs one orders by `Event.key`, that is by timestamp, then by
the rank of the kind, then by thread, then by the thread's own sequence
number. The rank opens scopes first and closes them last, so that scopes of
no length on different threads still open before they close.
-/

namespace EventTrace

/-! ## Kinds -/

/-- What an event records. -/
inductive Kind where
  /-- A scope opens on the thread. -/
  | scopeBegin
  /-- The innermost scope with the same id closes. -/
  | scopeEnd
  /-- The first link of a flow. -/
  | flowStart
  /-- A later link of a flow, possibly on another thread. -/
  | flowStep
  /-- The last link of a flow. -/
  | flowEnd
  /-- A point in time. -/
  | instant
  /-- A sample that carries a value. -/
  | counter
deriving DecidableEq, Repr, Inhabited

namespace Kind

/-- Every kind, in the order of the codes. -/
def all : List Kind :=
  [scopeBegin, scopeEnd, flowStart, flowStep, flowEnd, instant, counter]

/-- The number a kind is stored under, counted from one. -/
def code : Kind → Nat
  | scopeBegin => 1
  | scopeEnd => 2
  | flowStart => 3
  | flowStep => 4
  | flowEnd => 5
  | instant => 6
  | counter => 7

/-- The written name of a kind. -/
def name : Kind → String
  | scopeBegin => "begin"
  | scopeEnd => "end"
  | flowStart => "flow_start"
  | flowStep => "flow_step"
  | flowEnd => "flow_end"
  | instant => "instant"
  | counter => "counter"

/-- The kind with a written name. -/
def ofName? (s : String) : Option Kind := all.find? (·.name == s)

/-- The place of a kind among events of one timestamp. -/
def rank : Kind → Nat
  | scopeBegin => 0
  | flowStart => 1
  | flowStep => 2
  | flowEnd => 3
  | instant => 4
  | counter => 5
  | scopeEnd => 6

/-- Whether the kind links a flow. -/
def isFlow : Kind → Bool
  | flowStart | flowStep | flowEnd => true
  | _ => false

/-- Whether the kind opens or closes a scope. -/
def isScope : Kind → Bool
  | scopeBegin | scopeEnd => true
  | _ => false

/-- Kinds compare by code. -/
instance : Ord Kind := ⟨fun a b => compare a.code b.code⟩

theorem mem_all (k : Kind) : k ∈ all := by cases k <;> decide

/-- A written name reads back as its kind. -/
theorem ofName?_name (k : Kind) : ofName? k.name = some k := by cases k <;> decide

/-- No two kinds share a rank. -/
theorem rank_injective {a b : Kind} (h : a.rank = b.rank) : a = b := by
  cases a <;> cases b <;> revert h <;> decide

/-- No kind is of both sorts. -/
theorem not_isScope_of_isFlow {k : Kind} (h : k.isFlow = true) : k.isScope = false := by
  cases k <;> revert h <;> decide

end Kind

/-! ## Events -/

/-- The flow number that means "no flow". -/
def noFlow : Int := 0

/-- One occurrence. -/
structure Event where
  /-- What the occurrence is about. -/
  id : Int
  /-- The thread it was recorded on. -/
  thread : Int
  /-- Ticks of the recording's clock. -/
  timestamp : Int
  /-- What happened. -/
  kind : Kind
  /-- The flow it links, `noFlow` for every other kind. -/
  flow : Int := noFlow
  /-- The sample of a counter. -/
  value : Int := 0
  /-- Its place among the events of its thread. -/
  sequence : Int := 0
deriving DecidableEq, Repr, Inhabited

/-- What time-ordered reading sorts by. -/
structure Key where
  timestamp : Int
  rank : Nat
  thread : Int
  sequence : Int
deriving DecidableEq, Repr, Inhabited

namespace Key

/-- Keys compare field by field, the timestamp first. -/
instance : Ord Key where
  compare a b :=
    (compare a.timestamp b.timestamp).then <| (compare a.rank b.rank).then <|
      (compare a.thread b.thread).then (compare a.sequence b.sequence)

/-- Whether one key comes strictly before another. -/
def before (a b : Key) : Bool := compare a b == .lt

end Key

namespace Event

/-- The key an event is sorted by. -/
def key (e : Event) : Key := ⟨e.timestamp, e.kind.rank, e.thread, e.sequence⟩

end Event

end EventTrace
