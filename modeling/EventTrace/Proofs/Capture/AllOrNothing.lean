import EventTrace.Proofs.Capture.Answers
/-!
# Capture — all or nothing

A start claims the running flag, finds a depot, makes a collector, resets the
flow numbers, takes the next version and puts its session in place; a stop
drops the flag, takes the session out, closes it and its writers and copies
the chunks. `startInTurn` and `stopInTurn` make these changes one after
another and leave the process as the last one made it, whatever is answered.
They are `start` and `stop` nevertheless: whatever can fail fails before
anything is changed, as long as the flag is up exactly while a session is in
place. So a start or stop that fails might as well not have been made, and
every later answer is the same without it.
-/

namespace EventTrace

namespace Capture

variable {c : Capture} {o : Options} {now : Int}

/-! ## Change after change -/

/-- Claims the flag: whether it was down. -/
def tryBegin (c : Capture) : Bool × Capture :=
  if c.running then (false, c) else (true, { c with running := true })

/-- Drops the flag: whether it was up. -/
def tryFinish (c : Capture) : Bool × Capture :=
  if c.running then (true, { c with running := false }) else (false, c)

/-- Takes the session out. -/
def takeSession (c : Capture) : Option LiveSession × Capture :=
  (c.session, { c with session := none })

/-- Starts a session, change after change: what is answered, and the process
as it is then. -/
def startInTurn (c : Capture) (o : Options) (now : Int) :
    Except CaptureError Unit × Capture :=
  match o.validate with
  | .error cause => (.error (.invalidOptions cause), c)
  | .ok () =>
    match c.tryBegin with
    | (false, c) => (.error .alreadyRunning, c)
    | (true, c) =>
      let capacity := o.effectiveChunkCapacity
      let c := c.withDepotFor capacity
      let made := c.depot.newCollector o
      let c := { c with depot := made.2 }
      let c := { c with lastFlow := noFlow }
      let c := { c with version := c.version + 1 }
      let c := { c with
        depot := c.depot.note
          (.sessionStarted c.version capacity o.maxTotalEvents o.maxTotalChunks o.policy) }
      (.ok (), { c with
        session := some
          { version := c.version, collector := made.1, options := o, startTime := now } })

/-- Stops the session, change after change: what is answered, and the process
as it is then. -/
def stopInTurn (c : Capture) (now : Int) : Except CaptureError Recording × Capture :=
  match c.tryFinish with
  | (false, c) => (.error .notRunning, c)
  | (true, c) =>
    match c.takeSession with
    -- the flag was up without a session, and stays down
    | (none, c) => (.error .notRunning, c)
    | (some live, c) =>
      let c := { c with depot := c.depot.close live.collector }
      let (writers, depot) := c.depot.closeWriters live.collector
      let c := { c with depot }
      let (chunks, depot) := c.depot.freeze live.collector
      let c := { c with depot }
      let recording := recordingOf live (c.depot.collector live.collector) chunks now
      (.ok recording, { c with
        depot := c.depot.note (.sessionStopped live.version recording.eventCount
          recording.chunkCount writers recording.losses) })

/-- **A start fails before it changes anything.** -/
theorem startInTurn_eq (c : Capture) (o : Options) (now : Int) : c.startInTurn o now =
    match c.start o now with
    | .ok started => (.ok (), started)
    | .error cause => (.error cause, c) := by
  unfold startInTurn start tryBegin withDepotFor
  cases o.validate with
  | error cause => rfl
  | ok _ =>
    cases c.running with
    | true => rfl
    | false =>
      by_cases hcapacity : c.depot.capacity = o.effectiveChunkCapacity
      · simp [hcapacity]
      · simp [hcapacity]

/-- **A stop fails before it changes anything**, as long as the flag is up
exactly while a session is in place. -/
theorem stopInTurn_eq (hrunning : c.running = c.session.isSome) (now : Int) :
    c.stopInTurn now =
      match c.stop now with
      | .ok stopped => (.ok stopped.1, stopped.2)
      | .error cause => (.error cause, c) := by
  unfold stopInTurn stop tryFinish takeSession
  cases hsession : c.session with
  | none =>
    rw [hsession] at hrunning
    simp [hrunning]
  | some live =>
    rw [hsession] at hrunning
    simp [hrunning]

/-- A start that fails leaves the process as it was. -/
theorem startInTurn_error {cause : CaptureError} (h : (c.startInTurn o now).1 = .error cause) :
    (c.startInTurn o now).2 = c := by
  rw [startInTurn_eq] at h ⊢
  cases hstart : c.start o now with
  | ok started => simp [hstart] at h
  | error _ => rfl

/-- And so does a stop. -/
theorem stopInTurn_error (hrunning : c.running = c.session.isSome) {cause : CaptureError}
    (h : (c.stopInTurn now).1 = .error cause) : (c.stopInTurn now).2 = c := by
  rw [stopInTurn_eq hrunning] at h ⊢
  cases hstop : c.stop now with
  | ok stopped => simp [hstop] at h
  | error _ => rfl

/-- What a start answers. -/
theorem startInTurn_answer (c : Capture) (o : Options) (now : Int) :
    (c.startInTurn o now).1 =
      match o.validate with
      | .error cause => .error (.invalidOptions cause)
      | .ok () => if c.running then .error .alreadyRunning else .ok () := by
  rw [startInTurn_eq]
  unfold start
  cases o.validate with
  | error cause => rfl
  | ok _ => cases c.running <;> rfl

/-- What a stop answers. -/
theorem stopInTurn_answer (hrunning : c.running = c.session.isSome) (now : Int) :
    (∃ recording, (c.stopInTurn now).1 = .ok recording) ∧ c.session.isSome = true ∨
      (c.stopInTurn now).1 = .error .notRunning ∧ c.session = none := by
  rw [stopInTurn_eq hrunning]
  unfold stop
  cases hsession : c.session with
  | none => simp
  | some live =>
    rw [hsession] at hrunning
    simp [hrunning]

end Capture

namespace Program

open Capture

variable {p : Program} {command : Command} {cause : CaptureError}
  {E : List (CollectorId × Int)} {F : List CollectorId}

/-! ## Programs and their sessions -/

theorem answer_start (p : Program) (o : Options) (now : Int) : p.answer (.start o now) =
    match (p.capture.startInTurn o now).1 with
    | .ok _ => .started
    | .error cause => .failed cause := by
  rw [startInTurn_eq, answer]
  cases p.capture.start o now <;> rfl

theorem capture_start (p : Program) (o : Options) (now : Int) :
    (p.step (.start o now)).capture = (p.capture.startInTurn o now).2 := by
  rw [startInTurn_eq, step, obey]
  cases p.capture.start o now <;> rfl

theorem Sound.answer_stop (h : Sound E F p) (now : Int) : p.answer (.stop now) =
    match (p.capture.stopInTurn now).1 with
    | .ok recording => .stopped recording
    | .error cause => .failed cause := by
  rw [stopInTurn_eq h.laned.running, answer]
  cases p.capture.stop now <;> rfl

theorem Sound.capture_stop (h : Sound E F p) (now : Int) :
    (p.step (.stop now)).capture = (p.capture.stopInTurn now).2 := by
  rw [stopInTurn_eq h.laned.running, Program.step, obey]
  cases p.capture.stop now <;> rfl

/-- Calls start no sessions and do not fail as starts and stops do. -/
theorem reply_cases (p : Program) (t : ThreadId) (now : Reading) (request : Request) :
    (p.reply t now request).isStarted = false ∧
      ∀ cause, p.reply t now request ≠ .failed cause := by
  cases request with
  | closeScope | stepHandle | endHandle | stepFlow | dropFlow | takeHandle =>
    simp only [reply]
    split <;> simp [Answer.isStarted]
  | _ => simp [reply, Answer.isStarted]

/-- **A command that fails leaves the program as it was.** -/
theorem alike_of_failed (h : p.answer command = .failed cause) : Alike p (p.step command) := by
  have hidle : p.obey command = p := by
    cases command with
    | start o now =>
      rw [answer] at h
      cases hstart : p.capture.start o now with
      | ok started => simp [hstart] at h
      | error _ => rw [obey, hstart]
    | stop now =>
      rw [answer] at h
      cases hstop : p.capture.stop now with
      | ok stopped => simp [hstop] at h
      | error _ => rw [obey, hstop]
    | call t request now =>
      rw [answer] at h
      split at h
      · exact absurd h ((p.reply_cases t now request).2 cause)
      · exact absurd h (by simp)
  rw [step, hidle]
  exact ⟨rfl, rfl, rfl, rfl, rfl, rfl, rfl⟩

/-- The version moves with a start that goes well, and with nothing else. -/
theorem Sound.version_step (h : Sound E F p) (command : Command) :
    (p.step command).capture.version =
      p.capture.version + if (p.answer command).isStarted then 1 else 0 := by
  cases command with
  | start o now =>
    rw [Program.step, obey, Program.answer]
    cases hstart : p.capture.start o now with
    | ok started =>
      obtain ⟨-, -, _, _, -, -, -, heq⟩ := start_eq_ok hstart
      dsimp only
      rw [heq]
      rfl
    | error _ => rfl
  | stop now =>
    rw [Program.step, obey, Program.answer]
    cases hstop : p.capture.stop now with
    | ok stopped =>
      obtain ⟨live, -, -, heq⟩ := stopped_eq hstop
      dsimp only
      rw [heq]
      rfl
    | error _ => rfl
  | call t request now =>
    rw [Program.step, obey, Program.answer]
    split
    · next hthread =>
      rw [(p.reply_cases t now request).1]
      by_cases hrequest : request = .endThread
      · subst hrequest
        exact (SameOutline.dropWriter p.capture t).version
      · exact (h.serve_capture hthread now hrequest).1.version
    · rfl

/-- **The version counts the starts that went well.** -/
theorem version_run (names : List (Option String)) (commands : List Command) :
    (run names commands).capture.version = (told names commands).countP Answer.isStarted := by
  induction commands using List.reverseRecOn with
  | nil => rfl
  | append_singleton commands command ih =>
    obtain ⟨E, F, h⟩ := sound_run names commands
    rw [run_append, h.version_step, told_concat, List.countP_append, ih, List.countP_singleton]

end Program

/-- **Starts and stops are all or nothing.** After every run the flag is up
exactly while a session is in place, that session is of the current version,
and the version is the number of starts that went well. A start goes well
exactly if its options can work and no session is live, and options that
cannot work are refused while one is live too; a stop goes well exactly if a
session is live. One that fails leaves the whole process as it was, change
after change, and what the program is told and records from then on is what
it would be without it. -/
theorem starts_and_stops_all_or_nothing (names : List (Option String))
    (commands : List Command) :
    let p := Program.run names commands
    let c := p.capture
    (c.running = c.session.isSome ∧
      (∀ live, c.session = some live → live.version = c.version) ∧
      c.version = (Program.told names commands).countP Answer.isStarted) ∧
    (∀ (o : Options) (now : Int),
      ((c.startInTurn o now).1 = .ok () ↔ o.validate = .ok () ∧ c.session = none) ∧
      (∀ cause, (c.startInTurn o now).1 = .error (.invalidOptions cause) ↔
        o.validate = .error cause) ∧
      ((c.startInTurn o now).1 = .error .alreadyRunning ↔
        o.validate = .ok () ∧ c.session.isSome = true) ∧
      (∀ cause, (c.startInTurn o now).1 = .error cause → (c.startInTurn o now).2 = c) ∧
      (p.step (.start o now)).capture = (c.startInTurn o now).2 ∧
      p.answer (.start o now) =
        match (c.startInTurn o now).1 with
        | .ok _ => .started
        | .error cause => .failed cause) ∧
    (∀ now : Int,
      ((∃ recording, (c.stopInTurn now).1 = .ok recording) ↔ c.session.isSome = true) ∧
      ((c.stopInTurn now).1 = .error .notRunning ↔ c.session = none) ∧
      (∀ cause, (c.stopInTurn now).1 = .error cause → (c.stopInTurn now).2 = c) ∧
      (p.step (.stop now)).capture = (c.stopInTurn now).2 ∧
      p.answer (.stop now) =
        match (c.stopInTurn now).1 with
        | .ok recording => .stopped recording
        | .error cause => .failed cause) ∧
    ∀ command cause, p.answer command = .failed cause → ∀ later,
      Program.told names (commands ++ command :: later) =
        Program.told names commands ++ .failed cause :: p.answers later ∧
      Program.told names (commands ++ later) = Program.told names commands ++ p.answers later ∧
      (Program.run names (commands ++ later)).Alike
        (Program.run names (commands ++ command :: later)) := by
  intro p c
  obtain ⟨E, F, h⟩ := Program.sound_run names commands
  have hrunning : c.running = c.session.isSome := h.laned.running
  refine ⟨⟨hrunning, fun live hlive => (h.laned.live live hlive).1,
    Program.version_run names commands⟩, fun o now => ?_, fun now => ?_, ?_⟩
  · have hanswer := c.startInTurn_answer o now
    rw [hrunning] at hanswer
    refine ⟨?_, fun cause => ?_, ?_, fun _ => Capture.startInTurn_error, p.capture_start o now,
      p.answer_start o now⟩
    · rw [hanswer]
      cases o.validate <;> cases c.session <;> simp
    · rw [hanswer]
      cases o.validate <;> cases c.session <;> simp
    · rw [hanswer]
      cases o.validate <;> cases c.session <;> simp
  · refine ⟨?_, ?_, fun _ => Capture.stopInTurn_error hrunning, h.capture_stop now,
      h.answer_stop now⟩
    · obtain ⟨⟨recording, hok⟩, hlive⟩ | ⟨herror, hnone⟩ := c.stopInTurn_answer hrunning now
      · simp [hok, hlive]
      · simp [herror, hnone]
    · obtain ⟨⟨recording, hok⟩, hlive⟩ | ⟨herror, hnone⟩ := c.stopInTurn_answer hrunning now
      · simpa [hok, ← Option.isSome_iff_ne_none] using hlive
      · simp [herror, hnone]
  · intro command cause hfailed later
    obtain ⟨hanswers, halike⟩ := (Program.alike_of_failed hfailed).told later
    refine ⟨?_, Program.told_append names commands later, ?_⟩
    · rw [Program.told_append, Program.answers, hanswers, hfailed]
    · rw [Program.run_append_list, Program.run_append_list]
      exact halike

/-- A session with one point in it so far. -/
def Command.onePoint : List Command := [.start {} 0, .call 0 (.instant 3) ⟨1, 1⟩]

/-- A second start fails, and so does one with options that cannot work; with
either of them or without, the session has its one point. -/
theorem starts_and_stops_all_or_nothing_onePoint :
    let p := Program.run [none] Command.onePoint
    let refused : Options := { chunkCapacity := 0 }
    p.answer (.start {} 2) = .failed .alreadyRunning ∧
    p.answer (.start refused 2) = .failed (.invalidOptions .zeroChunkCapacity) ∧
    (p.capture.startInTurn {} 2).2 = p.capture ∧
    (p.capture.startInTurn refused 2).2 = p.capture ∧
    (Program.run [none] (Command.onePoint ++ [.stop 3])).Alike
      (Program.run [none] (Command.onePoint ++ [.start {} 2, .stop 3])) ∧
    (Program.run [none] (Command.onePoint ++ [.start {} 2, .stop 3])).past.map
      (fun s => s.recording.events.map Event.id) = [[3]] := by
  intro p refused
  have hlive : p.capture.session.isSome = true := by decide +kernel
  obtain ⟨-, hstart, -, hlater⟩ := starts_and_stops_all_or_nothing [none] Command.onePoint
  obtain ⟨-, -, hagain, hunchanged, -, hanswer⟩ := hstart {} 2
  obtain ⟨-, hinvalid, -, hunchanged', -, hanswer'⟩ := hstart refused 2
  have hrunning := hagain.mpr ⟨rfl, hlive⟩
  have hrefused := (hinvalid .zeroChunkCapacity).mpr rfl
  have hfailed : p.answer (.start {} 2) = .failed .alreadyRunning := by
    rw [hanswer, hrunning]
  refine ⟨hfailed, ?_, hunchanged _ hrunning, hunchanged' _ hrefused,
    (hlater (.start {} 2) _ hfailed [.stop 3]).2.2, by decide +kernel⟩
  rw [hanswer', hrefused]

end EventTrace
