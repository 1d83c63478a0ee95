import EventTrace.Proofs.Capture.Offers
import Mathlib.Data.List.Induction
/-!
# Capture — programs and what they have recorded

A program starts and stops sessions, and its threads open and close scopes,
record points and samples, and start, step and end flows, one call at a time
and in any interleaving. It holds on to guards, flow handles and flow scopes,
which may outlive a session. Beside the process it keeps minutes of the
session that runs: what a call asks to have recorded (`Program.remark?`), which
is told from the starts and stops that went well, from what the program holds
and from the flow number a call is given, and from nothing the process keeps
to itself. `Program.Sound` is what every command preserves, and
`Program.capture_serve` that a call comes to one emission at most: its remark.
-/

namespace EventTrace

open Capture

/-! ## Calls -/

/-- A call of a thread. Guards, handles and flow scopes go by their places in
what the program holds. -/
inductive Request where
  | openScope (id : Int)
  /-- Drops a guard of the thread. -/
  | closeScope (g : Nat)
  | instant (id : Int)
  | counter (id value : Int)
  | newFlow
  | startNewFlow (id : Int)
  | link (id : Int) (kind : { k : Kind // k.isFlow = true }) (flow : Int)
  | startFlow (id : Int)
  /-- A handle of a flow that was started by hand. -/
  | makeHandle (id flow : Int)
  | stepHandle (h : Nat)
  | endHandle (h : Nat)
  | openFlow (id : Int)
  | stepFlow (f : Nat)
  /-- Drops a flow scope. -/
  | dropFlow (f : Nat)
  /-- Takes the handle out of a flow scope and drops the scope. -/
  | takeHandle (f : Nat)
  /-- The thread ends and makes no more calls. -/
  | endThread

/-- What happens in a program. -/
inductive Command where
  | start (options : Options) (now : Int)
  | stop (now : Int)
  | call (t : ThreadId) (request : Request) (now : Reading)

/-! ## States -/

/-- A guard as the program holds it. -/
structure HeldGuard where
  thread : ThreadId
  guard : ScopeGuard
  /-- The session that ran when it was made, counted from zero. -/
  session : Option Nat
  /-- Whether its begin was recorded. -/
  written : Bool
  dropped : Bool := false

/-- An emission that a call asked for. -/
structure Remark where
  /-- The place of the call among all commands. -/
  place : Nat
  thread : ThreadId
  emission : Emission
  stamp : Int

/-- The minutes of a session. -/
structure Minutes where
  /-- The place of its start. -/
  started : Nat := 0
  remarks : List Remark := []

namespace Minutes

/-- What was asked for by the thread of some number. -/
def remarksOf (m : Minutes) (n : Int) : List Remark :=
  m.remarks.filter fun r => (r.thread : Int) + 1 == n

/-- The events of that, numbered from zero. -/
def eventsOf (m : Minutes) (n : Int) : List Event :=
  (m.remarksOf n).mapIdx fun place r => r.emission.event n r.stamp place

end Minutes

/-- A session that was stopped: its recording and its minutes. -/
structure PastSession where
  recording : Recording
  minutes : Minutes
  /-- The place of its stop. -/
  stopped : Nat

/-- A program under way. -/
structure Program where
  capture : Capture
  guards : List HeldGuard := []
  handles : List FlowHandle := []
  /-- Flow scopes, none in the place of one that was dropped. -/
  scopes : List (Option FlowScope) := []
  ended : List ThreadId := []
  /-- The number of commands so far. -/
  place : Nat := 0
  /-- The minutes of the session that runs. -/
  minutes : Option Minutes := none
  past : List PastSession := []

/-- What a handle asks to have recorded: nothing if it is inert or has
ended. -/
def FlowHandle.remark? (h : FlowHandle) (kind : Kind) : Option Emission :=
  if h.isValid && !h.ended then some { id := h.id, kind, flow := h.flow } else none

namespace Program

/-- A guard of a thread that was not dropped. -/
def guard? (p : Program) (t : ThreadId) (g : Nat) : Option HeldGuard :=
  p.guards[g]?.filter fun held => held.thread == t && !held.dropped

/-- A flow scope that was not dropped. -/
def scope? (p : Program) (f : Nat) : Option FlowScope := p.scopes[f]?.join

/-- The session that runs, counted from zero. -/
def session? (p : Program) : Option Nat := p.minutes.map fun _ => p.past.length

/-- What a call asks to have recorded, should a session run. -/
def remark? (p : Program) (t : ThreadId) : Request → Option Emission
  | .openScope id => some { id, kind := .scopeBegin }
  | .closeScope g =>
    match p.guard? t g with
    | some held =>
      -- an end counts only where its begin did
      if held.session = some p.past.length then some { id := held.guard.id, kind := .scopeEnd }
      else none
    | none => none
  | .instant id => some { id, kind := .instant }
  | .counter id value => some { id, kind := .counter, value }
  | .startNewFlow id | .startFlow id | .openFlow id =>
    some { id, kind := .flowStart, flow := p.capture.newFlow.1 }
  | .link id kind flow => if flow = noFlow then none else some { id, kind, flow }
  | .stepHandle h => p.handles[h]?.bind (·.remark? .flowStep)
  | .endHandle h => p.handles[h]?.bind (·.remark? .flowEnd)
  | .stepFlow f => (p.scope? f).bind (·.handle.remark? .flowStep)
  | .dropFlow f => (p.scope? f).bind (·.handle.remark? .flowEnd)
  | .newFlow | .makeHandle .. | .takeHandle _ | .endThread => none

/-- A call as the process serves it. -/
def serve (p : Program) (t : ThreadId) (now : Reading) : Request → Program
  | .openScope id =>
    let opened := p.capture.openScope t id now
    { p with
      capture := opened.2
      guards := p.guards ++
        [{ thread := t, guard := opened.1, session := p.session?,
           written := p.capture.writes t { id, kind := .scopeBegin } now }] }
  | .closeScope g =>
    match p.guard? t g with
    | some held =>
      { p with
        capture := p.capture.closeScope t held.guard now
        guards := p.guards.set g { held with dropped := true } }
    | none => p
  | .instant id => { p with capture := p.capture.instant t id now }
  | .counter id value => { p with capture := p.capture.counter t id value now }
  | .newFlow => { p with capture := p.capture.newFlow.2 }
  | .startNewFlow id => { p with capture := (p.capture.startNewFlow t id now).2 }
  | .link id kind flow => { p with capture := p.capture.link t id kind flow now }
  | .startFlow id =>
    let started := p.capture.startFlow t id now
    { p with capture := started.2, handles := p.handles ++ [started.1] }
  | .makeHandle id flow => { p with handles := p.handles ++ [{ id, flow }] }
  | .stepHandle h =>
    match p.handles[h]? with
    | some handle => { p with capture := p.capture.stepFlow t handle now }
    | none => p
  | .endHandle h =>
    match p.handles[h]? with
    | some handle =>
      let done := p.capture.endFlow t handle now
      { p with capture := done.2.2, handles := p.handles.set h done.2.1 }
    | none => p
  | .openFlow id =>
    let started := p.capture.openFlow t id now
    { p with capture := started.2, scopes := p.scopes ++ [some started.1] }
  | .stepFlow f =>
    match p.scope? f with
    | some scope => { p with capture := p.capture.stepFlow t scope.handle now }
    | none => p
  | .dropFlow f =>
    match p.scope? f with
    | some scope =>
      { p with capture := p.capture.dropFlow t scope now, scopes := p.scopes.set f none }
    | none => p
  | .takeHandle f =>
    match p.scope? f with
    | some scope =>
      { p with
        capture := p.capture.dropFlow t scope.intoHandle.2 now
        handles := p.handles ++ [scope.intoHandle.1]
        scopes := p.scopes.set f none }
    | none => p
  | .endThread => { p with capture := p.capture.endThread t, ended := t :: p.ended }

/-- The minutes after a call. -/
def noted (p : Program) (t : ThreadId) (now : Reading) (request : Request) : Option Minutes :=
  p.minutes.map fun m =>
    match p.remark? t request with
    | some emission => { m with remarks := m.remarks ++ [⟨p.place, t, emission, now.stamp⟩] }
    | none => m

/-- Whether a thread is there and has not ended. -/
def hasThread (p : Program) (t : ThreadId) : Bool :=
  decide (t < p.capture.slots.size) && !p.ended.contains t

/-- What a command does. A start or stop that fails changes nothing, nor does
a call by a thread that has ended. -/
def obey (p : Program) : Command → Program
  | .start options now =>
    match p.capture.start options now with
    | .ok capture => { p with capture, minutes := some { started := p.place } }
    | .error _ => p
  | .stop now =>
    match p.capture.stop now with
    | .ok stopped =>
      let session : PastSession :=
        { recording := stopped.1, minutes := p.minutes.getD {}, stopped := p.place }
      { p with capture := stopped.2, minutes := none, past := p.past ++ [session] }
    | .error _ => p
  | .call t request now =>
    if p.hasThread t then { p.serve t now request with minutes := p.noted t now request } else p

/-- The program after a command. -/
def step (p : Program) (command : Command) : Program :=
  { p.obey command with place := p.place + 1 }

/-- A program with threads of some names after some commands. -/
def run (names : List (Option String)) (commands : List Command) : Program :=
  commands.foldl step { capture := .ofThreads names }

end Program

/-! ## Calls as emissions -/

namespace Capture

variable {c : Capture} {t : ThreadId} {now : Reading}

/-- An emission, or nothing. -/
def utter (c : Capture) (t : ThreadId) (e : Option Emission) (now : Reading) : Capture :=
  match e with
  | some e => c.emit t e now
  | none => c

theorem emit_idle (h : c.running = false) (e : Emission) : c.emit t e now = c := by
  simp [emit, h]

theorem utter_idle (h : c.running = false) (e : Option Emission) : c.utter t e now = c := by
  cases e with
  | none => rfl
  | some e => exact emit_idle h e

theorem openScope_snd (c : Capture) (t : ThreadId) (id : Int) (now : Reading) :
    (c.openScope t id now).2 = c.emit t { id, kind := .scopeBegin } now := by
  unfold openScope
  split
  · rfl
  · next hidle => exact (emit_idle (by simpa using hidle) _).symm

theorem link_eq (c : Capture) (t : ThreadId) (id : Int) (kind : Kind) (flow : Int)
    (now : Reading) : c.link t id kind flow now =
      c.utter t (if flow = noFlow then none else some { id, kind, flow }) now := by
  unfold link
  split <;> rfl

/-- A number that is given out is of a flow. -/
theorem newFlow_ne (c : Capture) : c.newFlow.1 ≠ noFlow := by
  show nextFlow c.lastFlow ≠ noFlow
  unfold nextFlow
  generalize (if c.lastFlow = TickRate.maxTicks then TickRate.minTicks else c.lastFlow + 1) = next
  dsimp only
  split
  · exact Int.one_ne_zero
  · next hne => exact hne

theorem startNewFlow_snd (c : Capture) (t : ThreadId) (id : Int) (now : Reading) :
    (c.startNewFlow t id now).2 =
      c.newFlow.2.emit t { id, kind := .flowStart, flow := c.newFlow.1 } now := by
  rw [startNewFlow, link_eq, if_neg c.newFlow_ne]
  rfl

/-- While nothing runs no number is given out either. -/
theorem startFlow_snd (c : Capture) (t : ThreadId) (id : Int) (now : Reading) :
    ∃ flow, (c.startFlow t id now).2 = ({ c with lastFlow := flow } : Capture).emit t
      { id, kind := .flowStart, flow := c.newFlow.1 } now := by
  unfold startFlow
  split
  · exact ⟨_, startNewFlow_snd c t id now⟩
  · next hidle => exact ⟨c.lastFlow, (emit_idle (by simpa using hidle) _).symm⟩

/-- A handle that is open is of a flow. -/
theorem link_handle (c : Capture) (t : ThreadId) (h : FlowHandle) (kind : Kind)
    (now : Reading) : (if h.isValid && !h.ended then c.link t h.id kind h.flow now else c) =
      c.utter t (h.remark? kind) now := by
  unfold FlowHandle.remark?
  split
  · next hopen =>
    have hflow : h.flow ≠ noFlow := by
      simpa [FlowHandle.isValid] using (Bool.and_eq_true_iff.mp hopen).1
    rw [link_eq, if_neg hflow]
  · rfl

theorem stepFlow_eq (c : Capture) (t : ThreadId) (h : FlowHandle) (now : Reading) :
    c.stepFlow t h now = c.utter t (h.remark? .flowStep) now := link_handle c t h _ now

theorem endFlow_snd (c : Capture) (t : ThreadId) (h : FlowHandle) (now : Reading) :
    (c.endFlow t h now).2.2 = c.utter t (h.remark? .flowEnd) now := by
  rw [← link_handle]
  unfold endFlow
  split <;> rfl

end Capture

namespace Program

variable {p : Program} {t : ThreadId} {now : Reading} {request : Request}
  {E : List (CollectorId × Int)} {F : List CollectorId}

/-- A program whose threads are in their lanes, with minutes while a session
runs, and with guards that tell which session their begin went to as the
process does. -/
structure Sound (E : List (CollectorId × Int)) (F : List CollectorId) (p : Program) : Prop where
  laned : Laned E F p.ended p.capture
  minutes : p.minutes.isSome = p.capture.running
  /-- No guard is of a version or a session to come. -/
  version : ∀ g ∈ p.guards, ∀ v, g.guard.version = some v → v ≤ p.capture.version
  session : ∀ g ∈ p.guards, ∀ i, g.session = some i →
    i ≤ p.past.length ∧ (p.capture.running = false → i < p.past.length)
  /-- A guard is of the current version if its begin was in the session that
  runs. -/
  begun : p.capture.running = true → ∀ g ∈ p.guards,
    (g.guard.version = some p.capture.version ↔ g.session = some p.past.length)

theorem mem_of_guard? {g : Nat} {held : HeldGuard} (h : p.guard? t g = some held) :
    held ∈ p.guards ∧ held.thread = t ∧ held.dropped = false := by
  obtain ⟨hget, hheld⟩ := Option.filter_eq_some_iff.mp h
  rw [Bool.and_eq_true, beq_iff_eq, Bool.not_eq_true'] at hheld
  exact ⟨List.mem_of_getElem? hget, hheld⟩

/-- A guard records its end exactly in the session that has its begin. -/
theorem Sound.closeScope_eq (h : Sound E F p) {held : HeldGuard} (hheld : held ∈ p.guards)
    (t : ThreadId) (now : Reading) : p.capture.closeScope t held.guard now =
      p.capture.utter t (if held.session = some p.past.length
        then some { id := held.guard.id, kind := .scopeEnd } else none) now := by
  cases hrunning : p.capture.running with
  | false =>
    rw [utter_idle hrunning]
    unfold closeScope
    split
    · exact emit_idle hrunning _
    · rfl
  | true =>
    have hiff := h.begun hrunning held hheld
    unfold closeScope
    by_cases hversion : held.guard.version = some p.capture.version
    · rw [if_pos hversion, if_pos (hiff.mp hversion)]
      rfl
    · rw [if_neg hversion, if_neg fun hsession => hversion (hiff.mpr hsession)]
      rfl

/-- **A call comes to its remark.** -/
theorem Sound.capture_serve (h : Sound E F p) (t : ThreadId) (now : Reading)
    (hrequest : request ≠ .endThread) :
    ∃ flow, (p.serve t now request).capture =
      ({ p.capture with lastFlow := flow } : Capture).utter t (p.remark? t request) now := by
  cases request with
  | openScope id => exact ⟨p.capture.lastFlow, openScope_snd p.capture t id now⟩
  | closeScope g =>
    refine ⟨p.capture.lastFlow, ?_⟩
    cases hg : p.guard? t g with
    | none => simp only [serve, remark?, hg]; rfl
    | some held =>
      simp only [serve, remark?, hg]
      exact h.closeScope_eq (mem_of_guard? hg).1 t now
  | instant id => exact ⟨p.capture.lastFlow, rfl⟩
  | counter id value => exact ⟨p.capture.lastFlow, rfl⟩
  | newFlow => exact ⟨_, rfl⟩
  | startNewFlow id => exact ⟨_, startNewFlow_snd p.capture t id now⟩
  | link id kind flow => exact ⟨p.capture.lastFlow, link_eq p.capture t id kind flow now⟩
  | startFlow id => exact startFlow_snd p.capture t id now
  | makeHandle id flow => exact ⟨p.capture.lastFlow, rfl⟩
  | stepHandle i =>
    refine ⟨p.capture.lastFlow, ?_⟩
    simp only [serve, remark?]
    cases p.handles[i]? with
    | none => rfl
    | some handle => exact stepFlow_eq p.capture t handle now
  | endHandle i =>
    refine ⟨p.capture.lastFlow, ?_⟩
    simp only [serve, remark?]
    cases p.handles[i]? with
    | none => rfl
    | some handle => exact endFlow_snd p.capture t handle now
  | openFlow id => exact startFlow_snd p.capture t id now
  | stepFlow i =>
    refine ⟨p.capture.lastFlow, ?_⟩
    simp only [serve, remark?]
    cases p.scope? i with
    | none => rfl
    | some scope => exact stepFlow_eq p.capture t scope.handle now
  | dropFlow i =>
    refine ⟨p.capture.lastFlow, ?_⟩
    simp only [serve, remark?]
    cases p.scope? i with
    | none => rfl
    | some scope => exact endFlow_snd p.capture t scope.handle now
  | takeHandle i =>
    refine ⟨p.capture.lastFlow, ?_⟩
    simp only [serve, remark?]
    cases p.scope? i with
    | none => rfl
    | some scope => rfl
  | endThread => exact absurd rfl hrequest

/-! ## Commands -/

/-- What a command comes to. -/
inductive Step (p : Program) : Command → Program → Prop
  | start {options : Options} {now : Int} {capture : Capture} :
      p.capture.start options now = .ok capture →
      Step p (.start options now)
        { p with capture, minutes := some { started := p.place }, place := p.place + 1 }
  | stop {now : Int} {stopped : Recording × Capture} :
      p.capture.stop now = .ok stopped →
      Step p (.stop now)
        { p with
          capture := stopped.2
          minutes := none
          past := p.past ++ [⟨stopped.1, p.minutes.getD {}, p.place⟩]
          place := p.place + 1 }
  | serve {t : ThreadId} {request : Request} {now : Reading} :
      p.hasThread t = true → request ≠ .endThread →
      Step p (.call t request now)
        { p.serve t now request with
          minutes := p.noted t now request
          place := p.place + 1 }
  | endThread {t : ThreadId} {now : Reading} :
      p.hasThread t = true →
      Step p (.call t .endThread now)
        { p with capture := p.capture.endThread t, ended := t :: p.ended, place := p.place + 1 }
  /-- A start or stop that failed, or a call of a thread that is not there. -/
  | ignored {command : Command} :
      (∀ t request now, command = .call t request now → p.hasThread t = false) →
      Step p command { p with place := p.place + 1 }

/-- **A command comes to one of these.** -/
theorem step_spec (p : Program) (command : Command) : Step p command (p.step command) := by
  cases command with
  | start options now =>
    cases hstart : p.capture.start options now with
    | ok capture =>
      simp only [step, obey, hstart]
      exact .start hstart
    | error cause =>
      simp only [step, obey, hstart]
      exact .ignored fun _ _ _ hcall => absurd hcall (by simp)
  | stop now =>
    cases hstop : p.capture.stop now with
    | ok stopped =>
      simp only [step, obey, hstop]
      exact .stop hstop
    | error cause =>
      simp only [step, obey, hstop]
      exact .ignored fun _ _ _ hcall => absurd hcall (by simp)
  | call t request now =>
    by_cases hthread : p.hasThread t = true
    · simp only [step, obey, hthread, if_true]
      by_cases hrequest : request = .endThread
      · subst hrequest
        have hnoted : p.noted t now .endThread = p.minutes := by simp [noted, remark?]
        rw [hnoted]
        exact .endThread hthread
      · exact .serve hthread hrequest
    · simp only [step, obey, if_neg hthread]
      refine .ignored ?_
      rintro _ _ _ ⟨⟩
      simpa using hthread

theorem serve_past (p : Program) (t : ThreadId) (now : Reading) (request : Request) :
    (p.serve t now request).past = p.past := by
  cases request with
  | closeScope | stepHandle | endHandle | stepFlow | dropFlow | takeHandle =>
    dsimp only [serve]
    split <;> rfl
  | _ => rfl

theorem serve_ended (p : Program) (t : ThreadId) (now : Reading)
    (hrequest : request ≠ .endThread) : (p.serve t now request).ended = p.ended := by
  cases request with
  | closeScope | stepHandle | endHandle | stepFlow | dropFlow | takeHandle =>
    dsimp only [serve]
    split <;> rfl
  | endThread => exact absurd rfl hrequest
  | _ => rfl

/-- The guard that opening a scope makes. -/
def opened (p : Program) (t : ThreadId) (id : Int) (now : Reading) : HeldGuard where
  thread := t
  guard := (p.capture.openScope t id now).1
  session := p.session?
  written := p.capture.writes t { id, kind := .scopeBegin } now

/-- What a call does to the guards: it makes one, drops one, or leaves them
as they are. -/
theorem serve_guards (p : Program) (t : ThreadId) (now : Reading) (request : Request) :
    (∃ id, request = .openScope id ∧
      (p.serve t now request).guards = p.guards ++ [p.opened t id now]) ∨
    (∃ g held, request = .closeScope g ∧ p.guard? t g = some held ∧
      (p.serve t now request).guards = p.guards.set g { held with dropped := true }) ∨
    ((∀ id, request ≠ .openScope id) ∧ (∀ g, request = .closeScope g → p.guard? t g = none) ∧
      (p.serve t now request).guards = p.guards) := by
  cases request with
  | openScope id => exact .inl ⟨id, rfl, rfl⟩
  | closeScope g =>
    cases hg : p.guard? t g with
    | none =>
      refine .inr (.inr ⟨by simp, ?_, by simp [serve, hg]⟩)
      rintro _ ⟨⟩
      exact hg
    | some held => exact .inr (.inl ⟨g, held, rfl, hg, by simp [serve, hg]⟩)
  | stepHandle | endHandle | stepFlow | dropFlow | takeHandle =>
    refine .inr (.inr ⟨by simp, by simp, ?_⟩)
    dsimp only [serve]
    split <;> rfl
  | _ => exact .inr (.inr ⟨by simp, by simp, rfl⟩)

/-- A guard there is after a call was there before, dropped or not, or was
just made. -/
theorem mem_serve_guards {g : HeldGuard} (h : g ∈ (p.serve t now request).guards) :
    (∃ held ∈ p.guards, g.guard = held.guard ∧ g.session = held.session ∧
      g.thread = held.thread) ∨ ∃ id, g = p.opened t id now := by
  rcases p.serve_guards t now request with
    ⟨id, -, heq⟩ | ⟨i, held, -, hheld, heq⟩ | ⟨-, -, heq⟩
  · rw [heq] at h
    rcases List.mem_append.mp h with h | h
    · exact .inl ⟨g, h, rfl, rfl, rfl⟩
    · exact .inr ⟨id, List.mem_singleton.mp h⟩
  · rw [heq] at h
    rcases List.mem_or_eq_of_mem_set h with h | rfl
    · exact .inl ⟨g, h, rfl, rfl, rfl⟩
    · exact .inl ⟨held, (mem_of_guard? hheld).1, rfl, rfl, rfl⟩
  · rw [heq] at h
    exact .inl ⟨g, h, rfl, rfl, rfl⟩

namespace Sound

theorem thread_of_hasThread (h : p.hasThread t = true) :
    t < p.capture.slots.size ∧ t ∉ p.ended := by
  rw [hasThread, Bool.and_eq_true, decide_eq_true_eq, Bool.not_eq_true', ← Bool.not_eq_true,
    List.contains_iff_mem] at h
  exact h

/-- **A call leaves the outline of the process and the lanes of its
threads.** -/
theorem serve_capture (h : Sound E F p) (hthread : p.hasThread t = true) (now : Reading)
    (hrequest : request ≠ .endThread) :
    SameOutline p.capture (p.serve t now request).capture ∧
      ∃ E', Laned E' F p.ended (p.serve t now request).capture := by
  obtain ⟨hlt, hended⟩ := thread_of_hasThread hthread
  obtain ⟨flow, hserve⟩ := h.capture_serve t now hrequest
  have hrenumbered : SameOutline p.capture { p.capture with lastFlow := flow } :=
    ⟨rfl, rfl, rfl, rfl, fun _ => rfl, fun _ => rfl⟩
  have hlaned := h.laned.renumber flow
  rw [hserve]
  unfold utter
  split
  · next e _ => exact ⟨hrenumbered.trans (.emit _ t e now), hlaned.emit hlt hended e now⟩
  · exact ⟨hrenumbered, E, hlaned⟩

theorem noted_isSome (p : Program) (t : ThreadId) (now : Reading) (request : Request) :
    (p.noted t now request).isSome = p.minutes.isSome := by
  rw [noted, Option.isSome_map]

/-- A session that runs has minutes. -/
theorem exists_minutes (h : Sound E F p) {live : LiveSession}
    (hlive : p.capture.session = some live) : ∃ m, p.minutes = some m := by
  have hminutes := h.minutes
  rw [h.laned.isRunning hlive] at hminutes
  exact Option.isSome_iff_exists.mp hminutes

/-- A guard just made is of the current version if a session runs, and inert
if none does. -/
theorem opened_spec (h : Sound E F p) (t : ThreadId) (id : Int) (now : Reading) :
    (p.opened t id now).guard.version =
        (if p.capture.running then some p.capture.version else none) ∧
      (p.opened t id now).session = if p.capture.running then some p.past.length else none := by
  have hminutes := h.minutes
  unfold opened openScope session?
  cases hrunning : p.capture.running with
  | false =>
    rw [hrunning, Option.isSome_eq_false_iff, Option.isNone_iff_eq_none] at hminutes
    simp [hminutes]
  | true =>
    rw [hrunning, Option.isSome_iff_exists] at hminutes
    obtain ⟨m, hm⟩ := hminutes
    simp [hm]

theorem start (h : Sound E F p) {o : Options} {stamp : Int} {c : Capture}
    (hstart : p.capture.start o stamp = .ok c) : ∃ E' F',
      Sound E' F' { p with
        capture := c, minutes := some { started := p.place }, place := p.place + 1 } := by
  obtain ⟨E', F', hlaned⟩ := h.laned.start hstart
  obtain ⟨-, hidle, _, _, -, -, -, heq⟩ := start_eq_ok hstart
  have hrunning : c.running = true := by rw [heq]
  have hversion : c.version = p.capture.version + 1 := by rw [heq]
  refine ⟨E', F', hlaned, hrunning.symm, ?_, ?_, ?_⟩
  · intro g hg v hv
    have := h.version g hg v hv
    show v ≤ c.version
    omega
  · intro g hg i hi
    exact ⟨(h.session g hg i hi).1, fun hnot => absurd (hrunning.symm.trans hnot) (by simp)⟩
  · -- every guard is of an older version, and of a session that is over
    intro _ g hg
    show g.guard.version = some c.version ↔ g.session = some p.past.length
    constructor
    · intro hv
      have := h.version g hg _ hv
      omega
    · intro hi
      have := (h.session g hg _ hi).2 hidle
      omega

theorem stop (h : Sound E F p) {stamp : Int} {stopped : Recording × Capture}
    (hstop : p.capture.stop stamp = .ok stopped) (session : PastSession) : ∃ F',
      Sound E F' { p with
        capture := stopped.2, minutes := none, past := p.past ++ [session],
        place := p.place + 1 } := by
  obtain ⟨F', hlaned⟩ := h.laned.stop hstop
  obtain ⟨live, -, -, heq⟩ := stopped_eq hstop
  have hidle : stopped.2.running = false := by rw [heq]
  have hversion : stopped.2.version = p.capture.version := by rw [heq]
  refine ⟨F', hlaned, hidle.symm, ?_, ?_, fun hrunning => absurd (hidle.symm.trans hrunning)
    (by simp)⟩
  · intro g hg v hv
    rw [hversion]
    exact h.version g hg v hv
  · intro g hg i hi
    have := (h.session g hg i hi).1
    show i ≤ (p.past ++ [session]).length ∧ (_ → i < (p.past ++ [session]).length)
    rw [List.length_append, List.length_singleton]
    omega

theorem serve (h : Sound E F p) (hthread : p.hasThread t = true) (now : Reading)
    (hrequest : request ≠ .endThread) : ∃ E',
      Sound E' F { p.serve t now request with
        minutes := p.noted t now request, place := p.place + 1 } := by
  obtain ⟨houtline, E', hlaned⟩ := h.serve_capture hthread now hrequest
  have hpast := p.serve_past t now request
  refine ⟨E', ?_, ?_, ?_, ?_, ?_⟩
  · show Laned E' F (p.serve t now request).ended _
    rw [p.serve_ended t now hrequest]
    exact hlaned
  · exact (noted_isSome p t now request).trans (h.minutes.trans houtline.running.symm)
  · intro g hg v hv
    show v ≤ (p.serve t now request).capture.version
    rw [houtline.version]
    rcases mem_serve_guards hg with ⟨held, hheld, hguard, -⟩ | ⟨id, rfl⟩
    · exact h.version held hheld v (hguard ▸ hv)
    · rw [(h.opened_spec t id now).1, Option.ite_none_right_eq_some, Option.some.injEq] at hv
      exact Nat.le_of_eq hv.2.symm
  · intro g hg i hi
    show i ≤ (p.serve t now request).past.length ∧
      ((p.serve t now request).capture.running = false → i < (p.serve t now request).past.length)
    rw [hpast, houtline.running]
    rcases mem_serve_guards hg with ⟨held, hheld, -, hsession, -⟩ | ⟨id, rfl⟩
    · exact h.session held hheld i (hsession ▸ hi)
    · rw [(h.opened_spec t id now).2, Option.ite_none_right_eq_some, Option.some.injEq] at hi
      exact ⟨Nat.le_of_eq hi.2.symm, fun hidle => absurd (hidle.symm.trans hi.1) (by simp)⟩
  · intro hrunning g hg
    show g.guard.version = some (p.serve t now request).capture.version ↔
      g.session = some (p.serve t now request).past.length
    change (p.serve t now request).capture.running = true at hrunning
    rw [hpast, houtline.version]
    rw [houtline.running] at hrunning
    rcases mem_serve_guards hg with ⟨held, hheld, hguard, hsession, -⟩ | ⟨id, rfl⟩
    · rw [hguard, hsession]
      exact h.begun hrunning held hheld
    · obtain ⟨hversion, hsession⟩ := h.opened_spec t id now
      simp [hversion, hsession, hrunning]

theorem endThread (h : Sound E F p) (t : ThreadId) :
    Sound E F { p with
      capture := p.capture.endThread t, ended := t :: p.ended, place := p.place + 1 } := by
  have houtline := SameOutline.dropWriter p.capture t
  refine ⟨h.laned.endThread t, h.minutes.trans houtline.running.symm, ?_, ?_, ?_⟩
  · intro g hg v hv
    exact (h.version g hg v hv).trans_eq houtline.version.symm
  · intro g hg i hi
    obtain ⟨hle, hlt⟩ := h.session g hg i hi
    exact ⟨hle, fun hidle => hlt (houtline.running.symm.trans hidle)⟩
  · intro hrunning g hg
    show g.guard.version = some (p.capture.dropWriter t).version ↔ _
    rw [houtline.version]
    exact h.begun (houtline.running.symm.trans hrunning) g hg

/-- **Every command keeps a program sound.** -/
theorem step (h : Sound E F p) (command : Command) : ∃ E' F', Sound E' F' (p.step command) := by
  have hstep := p.step_spec command
  generalize p.step command = p' at hstep ⊢
  cases hstep with
  | start hstart => exact h.start hstart
  | stop hstop =>
    obtain ⟨F', hstopped⟩ := h.stop hstop _
    exact ⟨E, F', hstopped⟩
  | serve hthread hrequest =>
    obtain ⟨E', hserved⟩ := h.serve hthread _ hrequest
    exact ⟨E', F, hserved⟩
  | endThread => exact ⟨E, F, h.endThread _⟩
  | ignored _ => exact ⟨E, F, h.laned, h.minutes, h.version, h.session, h.begun⟩

theorem start_run (names : List (Option String)) :
    Sound [] [] { capture := .ofThreads names } where
  laned := .ofThreads names
  minutes := rfl
  version _ hg := absurd hg List.not_mem_nil
  session _ hg := absurd hg List.not_mem_nil
  begun hrunning := absurd hrunning (by simp [Capture.ofThreads])

end Sound

theorem run_append (names : List (Option String)) (commands : List Command) (command : Command) :
    run names (commands ++ [command]) = (run names commands).step command := by
  rw [run, List.foldl_append]
  rfl

/-- **What holds of a sound program at first and is kept by every command**
holds after every run. -/
theorem run_induction {P : Program → Prop} (names : List (Option String))
    (hstart : P { capture := .ofThreads names })
    (hstep : ∀ {E F p} (command : Command), Sound E F p → P p → P (p.step command))
    (commands : List Command) : P (run names commands) := by
  have hrun : (∃ E F, Sound E F (run names commands)) ∧ P (run names commands) := by
    induction commands using List.reverseRecOn with
    | nil => exact ⟨⟨[], [], .start_run names⟩, hstart⟩
    | append_singleton commands command ih =>
      obtain ⟨⟨E, F, hsound⟩, hP⟩ := ih
      rw [run_append]
      exact ⟨hsound.step command, hstep command hsound hP⟩
  exact hrun.2

theorem sound_run (names : List (Option String)) (commands : List Command) :
    ∃ E F, Sound E F (run names commands) :=
  run_induction (P := fun p => ∃ E F, Sound E F p) names ⟨[], [], .start_run names⟩
    (fun command h _ => h.step command) commands

end Program

end EventTrace
