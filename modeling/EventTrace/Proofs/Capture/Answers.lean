import EventTrace.Proofs.Capture.Program
/-!
# Capture — what a program is told

Every command has an answer: a start goes well or fails, a stop hands over a
recording, a call returns a guard, a number, a handle, a flow scope, whether
it ended a flow, or nothing. `Program.told` is what a program is told from its
first command on. Two programs that are alike but for the places of their
commands (`Program.Alike`) are told the same, and stay alike
(`Program.Alike.told`).
-/

namespace EventTrace

open Capture

/-! ## Answers -/

/-- What a command answers. -/
inductive Answer where
  | started
  | stopped (recording : Recording)
  | failed (cause : CaptureError)
  | guard (guard : ScopeGuard)
  /-- A flow number that was given out. -/
  | number (flow : Int)
  | handle (handle : FlowHandle)
  | scope (scope : FlowScope)
  /-- Whether a handle was ended by the call. -/
  | ended (here : Bool)
  | done
  /-- There is no such thread, guard, handle or scope. -/
  | missing

namespace Answer

/-- Whether a session was started. -/
def isStarted : Answer → Bool
  | started => true
  | _ => false

/-- Whether a call says that it ended a handle. -/
def isEnd : Answer → Bool
  | ended here => here
  | _ => false

theorem isEnd_iff {a : Answer} : a.isEnd = true ↔ a = ended true := by
  cases a <;> simp [isEnd]

end Answer

namespace Program

/-- What a call answers on a thread that is there. -/
def reply (p : Program) (t : ThreadId) (now : Reading) : Request → Answer
  | .openScope id => .guard (p.capture.openScope t id now).1
  | .closeScope g =>
    match p.guard? t g with
    | some _ => .done
    | none => .missing
  | .instant _ | .counter .. | .link .. | .endThread => .done
  | .newFlow => .number p.capture.newFlow.1
  | .startNewFlow id => .number (p.capture.startNewFlow t id now).1
  | .startFlow id => .handle (p.capture.startFlow t id now).1
  | .makeHandle id flow => .handle { id, flow }
  | .stepHandle h =>
    match p.handles[h]? with
    | some _ => .done
    | none => .missing
  | .endHandle h =>
    match p.handles[h]? with
    | some handle => .ended (p.capture.endFlow t handle now).1
    | none => .missing
  | .openFlow id => .scope (p.capture.openFlow t id now).1
  | .stepFlow f | .dropFlow f =>
    match p.scope? f with
    | some _ => .done
    | none => .missing
  | .takeHandle f =>
    match p.scope? f with
    | some scope => .handle scope.intoHandle.1
    | none => .missing

/-- What a command answers. -/
def answer (p : Program) : Command → Answer
  | .start options now =>
    match p.capture.start options now with
    | .ok _ => .started
    | .error cause => .failed cause
  | .stop now =>
    match p.capture.stop now with
    | .ok stopped => .stopped stopped.1
    | .error cause => .failed cause
  | .call t request now => if p.hasThread t then p.reply t now request else .missing

/-- What one command after another answers. -/
def answers (p : Program) : List Command → List Answer
  | [] => []
  | command :: rest => p.answer command :: (p.step command).answers rest

/-- What a program with threads of some names is told by some commands. -/
def told (names : List (Option String)) (commands : List Command) : List Answer :=
  (run names []).answers commands

variable {p p' : Program} {t : ThreadId} {now : Reading}

theorem answers_append (p : Program) (commands later : List Command) :
    p.answers (commands ++ later) =
      p.answers commands ++ (commands.foldl step p).answers later := by
  induction commands generalizing p with
  | nil => rfl
  | cons command commands ih =>
    simp only [List.cons_append, answers, ih, List.foldl_cons]

theorem told_append (names : List (Option String)) (commands later : List Command) :
    told names (commands ++ later) = told names commands ++ (run names commands).answers later :=
  answers_append _ commands later

theorem told_concat (names : List (Option String)) (commands : List Command)
    (command : Command) : told names (commands ++ [command]) =
      told names commands ++ [(run names commands).answer command] :=
  told_append names commands [command]

theorem run_append_list (names : List (Option String)) (commands later : List Command) :
    run names (commands ++ later) = later.foldl step (run names commands) := List.foldl_append

/-! ## Programs that are alike -/

theorem session?_eq (p : Program) :
    p.session? = if p.minutes.isSome then some p.past.length else none := by
  unfold session?
  cases p.minutes <;> rfl

/-- The second program is like the first but for the places of commands: the
process is the same, what is held is the same, and so is every recording. -/
structure Alike (p p' : Program) : Prop where
  capture : p'.capture = p.capture
  guards : p'.guards = p.guards
  handles : p'.handles = p.handles
  scopes : p'.scopes = p.scopes
  ended : p'.ended = p.ended
  minutes : p'.minutes.isSome = p.minutes.isSome
  recordings : p'.past.map PastSession.recording = p.past.map PastSession.recording

namespace Alike

theorem session? (h : Alike p p') : p'.session? = p.session? := by
  have hcount := congrArg List.length h.recordings
  rw [List.length_map, List.length_map] at hcount
  rw [session?_eq, session?_eq, h.minutes, hcount]

theorem guard? (h : Alike p p') (t : ThreadId) (g : Nat) : p'.guard? t g = p.guard? t g := by
  rw [Program.guard?, Program.guard?, h.guards]

theorem scope? (h : Alike p p') (f : Nat) : p'.scope? f = p.scope? f := by
  rw [Program.scope?, Program.scope?, h.scopes]

/-- A call does the same to both. -/
theorem serve (h : Alike p p') (t : ThreadId) (now : Reading) (request : Request) :
    Alike (p.serve t now request) (p'.serve t now request) := by
  have hsession := h.session?
  have hguard := h.guard? t
  have hscope := h.scope?
  obtain ⟨hcapture, hguards, hhandles, hscopes, hended, hminutes, hrecordings⟩ := h
  cases request with
  | closeScope | stepHandle | endHandle | stepFlow | dropFlow | takeHandle =>
    simp only [Program.serve, hguard, hscope, hhandles]
    split <;> constructor <;> simp only [*]
  | _ => constructor <;> simp only [Program.serve, *]

theorem hasThread (h : Alike p p') (t : ThreadId) : p'.hasThread t = p.hasThread t := by
  rw [Program.hasThread, Program.hasThread, h.capture, h.ended]

theorem reply (h : Alike p p') (t : ThreadId) (now : Reading) (request : Request) :
    p'.reply t now request = p.reply t now request := by
  cases request <;> simp only [Program.reply, h.guard?, h.scope?, h.capture, h.handles]

/-- **Programs that are alike are told the same by a command.** -/
theorem answer (h : Alike p p') (command : Command) : p'.answer command = p.answer command := by
  cases command <;> simp only [Program.answer, h.capture, h.hasThread, h.reply]

/-- **A command leaves programs alike.** -/
theorem step (h : Alike p p') (command : Command) : Alike (p.step command) (p'.step command) := by
  cases command with
  | start options now =>
    simp only [Program.step, obey, h.capture]
    cases p.capture.start options now with
    | ok capture => exact ⟨rfl, h.guards, h.handles, h.scopes, h.ended, rfl, h.recordings⟩
    | error cause =>
      exact ⟨h.capture, h.guards, h.handles, h.scopes, h.ended, h.minutes, h.recordings⟩
  | stop now =>
    simp only [Program.step, obey, h.capture]
    cases p.capture.stop now with
    | ok stopped =>
      refine ⟨rfl, h.guards, h.handles, h.scopes, h.ended, rfl, ?_⟩
      simp only [List.map_append, h.recordings, List.map_singleton]
    | error cause =>
      exact ⟨h.capture, h.guards, h.handles, h.scopes, h.ended, h.minutes, h.recordings⟩
  | call t request now =>
    simp only [Program.step, obey, h.hasThread]
    split
    · have hserved := h.serve t now request
      refine ⟨hserved.capture, hserved.guards, hserved.handles, hserved.scopes, hserved.ended, ?_,
        hserved.recordings⟩
      exact (Sound.noted_isSome p' t now request).trans
        (h.minutes.trans (Sound.noted_isSome p t now request).symm)
    · exact ⟨h.capture, h.guards, h.handles, h.scopes, h.ended, h.minutes, h.recordings⟩

/-- **Programs that are alike are told the same** from there on, and stay
alike. -/
theorem told (h : Alike p p') (commands : List Command) :
    p'.answers commands = p.answers commands ∧
      Alike (commands.foldl Program.step p) (commands.foldl Program.step p') := by
  induction commands generalizing p p' with
  | nil => exact ⟨rfl, h⟩
  | cons command commands ih =>
    obtain ⟨hanswers, halike⟩ := ih (h.step command)
    exact ⟨congrArg₂ List.cons (h.answer command) hanswers, halike⟩

end Alike

end Program

end EventTrace
