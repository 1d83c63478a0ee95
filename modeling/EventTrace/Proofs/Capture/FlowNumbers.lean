import EventTrace.Proofs.Capture.Flowbook
/-!
# Capture — flow numbers

Every start begins the flow numbers anew, and each one given out is the next,
whoever asks for it, be it while a session runs or after it: the numbers that
were given out since a start are `flowNumbers`, in their order, and those of
each session that is over are the first of them (`Flowbook.Numbered`). Short
of the last word of 64 bits they are the numbers from one on.
-/

namespace EventTrace

namespace Capture

variable {c : Capture} {t : ThreadId} {now : Reading}

/-! ## The numbers that are given out -/

/-- The first flow numbers after a start. -/
def flowNumbers (n : Nat) : List Int := (List.range n).map fun i => nextFlow^[i + 1] noFlow

theorem flowNumbers_succ (n : Nat) :
    flowNumbers (n + 1) = flowNumbers n ++ [nextFlow (nextFlow^[n] noFlow)] := by
  rw [flowNumbers, List.range_succ, List.map_append, ← flowNumbers, List.map_singleton,
    Function.iterate_succ_apply']

/-- They count up to the last word. -/
theorem iterate_nextFlow {n : Nat} (h : (n : Int) ≤ TickRate.maxTicks) :
    nextFlow^[n] noFlow = n := by
  induction n with
  | zero => rfl
  | succ n ih =>
    have hlt : (n : Int) < TickRate.maxTicks := by omega
    rw [Function.iterate_succ_apply', ih (Int.le_of_lt hlt), nextFlow,
      if_neg (Int.ne_of_lt hlt)]
    have hne : (n : Int) + 1 ≠ noFlow := by
      show (n : Int) + 1 ≠ 0
      omega
    rw [if_neg hne]
    exact (Int.natCast_succ n).symm

theorem flowNumbers_eq {n : Nat} (h : (n : Int) ≤ TickRate.maxTicks) :
    flowNumbers n = (List.range n).map fun i : Nat => (i : Int) + 1 := by
  refine List.map_congr_left fun i hi => ?_
  have hlt := List.mem_range.mp hi
  have hle : ((i + 1 : Nat) : Int) ≤ TickRate.maxTicks := by omega
  rw [iterate_nextFlow hle]
  exact Int.natCast_succ i

/-- Up to there no number comes twice, and each is positive. -/
theorem nodup_flowNumbers {n : Nat} (h : (n : Int) ≤ TickRate.maxTicks) :
    (flowNumbers n).Nodup ∧ ∀ flow ∈ flowNumbers n, 0 < flow := by
  rw [flowNumbers_eq h]
  constructor
  · refine List.nodup_range.map fun i j hij => ?_
    omega
  · intro flow hflow
    obtain ⟨i, -, rfl⟩ := List.mem_map.mp hflow
    omega

/-! ## Who changes the last one -/

theorem lastFlow_dropWriter (c : Capture) (t : ThreadId) :
    (c.dropWriter t).lastFlow = c.lastFlow := by
  unfold dropWriter
  split <;> rfl

theorem lastFlow_bind (c : Capture) (t : ThreadId) : (c.bind t).2.lastFlow = c.lastFlow := by
  have hdropped := lastFlow_dropWriter c t
  unfold bind
  dsimp only
  split
  · rfl
  · split
    · exact hdropped
    · split
      · exact hdropped
      · exact hdropped

/-- Emissions give out no numbers. -/
@[simp] theorem lastFlow_emit (c : Capture) (t : ThreadId) (e : Emission) (now : Reading) :
    (c.emit t e now).lastFlow = c.lastFlow := by
  have hbound := lastFlow_bind c t
  unfold emit
  split
  · rfl
  · split
    · next c₁ hc₁ => rwa [hc₁] at hbound
    · next w c₁ hc₁ => rwa [hc₁] at hbound

@[simp] theorem lastFlow_utter (c : Capture) (t : ThreadId) (e : Option Emission)
    (now : Reading) : (c.utter t e now).lastFlow = c.lastFlow := by
  cases e with
  | none => rfl
  | some e => exact lastFlow_emit c t e now

theorem lastFlow_startNewFlow (c : Capture) (t : ThreadId) (id : Int) (now : Reading) :
    (c.startNewFlow t id now).2.lastFlow = nextFlow c.lastFlow := by
  rw [startNewFlow_snd, lastFlow_emit]
  rfl

/-- A handle is given a number exactly while a session runs. -/
theorem startFlow_spec (c : Capture) (t : ThreadId) (id : Int) (now : Reading) :
    (c.startFlow t id now).1.ended = false ∧
      (c.startFlow t id now).1.isValid = c.running ∧
      if c.running then (c.startFlow t id now).1.flow = nextFlow c.lastFlow ∧
        (c.startFlow t id now).2.lastFlow = nextFlow c.lastFlow
      else (c.startFlow t id now).2 = c := by
  unfold startFlow
  cases c.running with
  | false => exact ⟨rfl, rfl, rfl⟩
  | true =>
    refine ⟨rfl, ?_, rfl, lastFlow_startNewFlow c t id now⟩
    have hne : (c.startNewFlow t id now).1 ≠ noFlow := newFlow_ne c
    simpa [FlowHandle.isValid] using hne

/-- And the number is the next one. -/
theorem drawn_startFlow (c : Capture) (t : ThreadId) (id : Int) (now : Reading) :
    let started := c.startFlow t id now
    let drawn := if started.1.isValid then some started.1.flow else none
    (drawn = none ∧ started.2.lastFlow = c.lastFlow) ∨
      (drawn = some (nextFlow c.lastFlow) ∧ started.2.lastFlow = nextFlow c.lastFlow) := by
  obtain ⟨-, hvalid, hspec⟩ := startFlow_spec c t id now
  intro started drawn
  cases hrunning : c.running with
  | false =>
    rw [hrunning] at hvalid hspec
    exact .inl ⟨if_neg (by simp [started, hvalid]), congrArg Capture.lastFlow hspec⟩
  | true =>
    rw [hrunning] at hvalid hspec
    exact .inr ⟨(if_pos hvalid).trans (congrArg some hspec.1), hspec.2⟩

end Capture

namespace Flowbook

open Capture

variable {b : Flowbook} {p : Program} {t : ThreadId} {now : Reading} {request : Request}

/-! ## Numbers by session -/

/-- What was given out since the last start. -/
def fresh (b : Flowbook) : List FlowDraw :=
  b.draws.filter fun d => b.since.all fun start => decide (start < d.place)

/-- What was given out between two places. -/
def drawsIn (b : Flowbook) (first last : Nat) : List FlowDraw :=
  b.draws.filter fun d => decide (first < d.place ∧ d.place < last)

/-- **What a call gives out is the next number.** -/
theorem drawn?_serve (p : Program) (t : ThreadId) (now : Reading) (request : Request) :
    (request.drawn? (p.reply t now request) = none ∧
      (p.serve t now request).capture.lastFlow = p.capture.lastFlow) ∨
    (request.drawn? (p.reply t now request) = some (nextFlow p.capture.lastFlow) ∧
      (p.serve t now request).capture.lastFlow = nextFlow p.capture.lastFlow) := by
  cases request with
  | newFlow => exact .inr ⟨rfl, rfl⟩
  | startNewFlow id => exact .inr ⟨rfl, lastFlow_startNewFlow _ _ _ _⟩
  | startFlow id | openFlow id => exact drawn_startFlow p.capture t id now
  | openScope id => exact .inl ⟨rfl, by simp [Program.serve, openScope_snd]⟩
  | instant id => exact .inl ⟨rfl, lastFlow_emit _ _ _ _⟩
  | counter id value => exact .inl ⟨rfl, lastFlow_emit _ _ _ _⟩
  | link id kind flow => exact .inl ⟨rfl, by simp [Program.serve, link_eq]⟩
  | endThread => exact .inl ⟨rfl, lastFlow_dropWriter _ _⟩
  | makeHandle id flow => exact .inl ⟨rfl, rfl⟩
  | closeScope g =>
    refine .inl ⟨rfl, ?_⟩
    simp only [Program.serve]
    split
    · unfold Capture.closeScope
      split
      · exact lastFlow_emit _ _ _ _
      · rfl
    · rfl
  | stepHandle | stepFlow =>
    refine .inl ⟨rfl, ?_⟩
    simp only [Program.serve]
    split
    · simp [stepFlow_eq]
    · rfl
  | endHandle | dropFlow | takeHandle =>
    refine .inl ⟨rfl, ?_⟩
    simp only [Program.serve]
    split
    · simp [Capture.dropFlow, endFlow_snd]
    · rfl

/-- The numbers given out since the last start, and those given out in every
session that is over, are the first ones. -/
structure Numbered (p : Program) (b : Flowbook) : Prop where
  since : ∀ m, p.minutes = some m → b.since = some m.started
  started : ∀ start ∈ b.since, start < p.place
  draws : ∀ d ∈ b.draws, d.place < p.place
  fresh : b.fresh.map FlowDraw.flow = flowNumbers b.fresh.length
  last : p.capture.lastFlow = nextFlow^[b.fresh.length] noFlow
  stopped : ∀ s ∈ p.past, s.stopped < p.place
  past : ∀ s ∈ p.past, (b.drawsIn s.minutes.started s.stopped).map FlowDraw.flow =
    flowNumbers (b.drawsIn s.minutes.started s.stopped).length

namespace Numbered

/-- Nothing is given out, and no session begins or ends. -/
theorem idle (h : Numbered p b) {p' : Program} {b' : Flowbook} (hplace : p'.place = p.place + 1)
    (hlast : p'.capture.lastFlow = p.capture.lastFlow)
    (hminutes : ∀ m', p'.minutes = some m' → ∃ m, p.minutes = some m ∧ m'.started = m.started)
    (hpast : p'.past = p.past) (hsince : b'.since = b.since) (hdraws : b'.draws = b.draws) :
    Numbered p' b' := by
  have hfresh : b'.fresh = b.fresh := by rw [Flowbook.fresh, hdraws, hsince, ← Flowbook.fresh]
  have hsame : ∀ first last, b'.drawsIn first last = b.drawsIn first last := fun first last => by
    rw [drawsIn, hdraws, ← drawsIn]
  refine ⟨fun m' hm' => ?_, fun start hstart => ?_, fun d hd => ?_, ?_, ?_, fun s hs => ?_,
    fun s hs => ?_⟩
  · obtain ⟨m, hm, hstarted⟩ := hminutes m' hm'
    rw [hsince, h.since m hm, hstarted]
  · exact hplace ▸ Nat.lt_succ_of_lt (h.started start (hsince ▸ hstart))
  · exact hplace ▸ Nat.lt_succ_of_lt (h.draws d (hdraws ▸ hd))
  · rw [hfresh]
    exact h.fresh
  · rw [hlast, hfresh]
    exact h.last
  · exact hplace ▸ Nat.lt_succ_of_lt (h.stopped s (hpast ▸ hs))
  · rw [hsame]
    exact h.past s (hpast ▸ hs)

/-- The next number is given out. -/
theorem draw (h : Numbered p b) {p' : Program} {b' : Flowbook} (hplace : p'.place = p.place + 1)
    (hlast : p'.capture.lastFlow = nextFlow p.capture.lastFlow)
    (hminutes : ∀ m', p'.minutes = some m' → ∃ m, p.minutes = some m ∧ m'.started = m.started)
    (hpast : p'.past = p.past) (hsince : b'.since = b.since)
    (hdraws : b'.draws = b.draws ++ [⟨p.place, nextFlow p.capture.lastFlow⟩]) :
    Numbered p' b' := by
  have hfresh : b'.fresh = b.fresh ++ [⟨p.place, nextFlow p.capture.lastFlow⟩] := by
    have hnew : (b.since.all fun start => decide (start < p.place)) = true := by
      rw [Option.all_eq_true]
      exact fun start hstart => decide_eq_true (h.started start hstart)
    rw [Flowbook.fresh, hdraws, hsince, List.filter_append, ← Flowbook.fresh]
    simp [hnew]
  have hlength : b'.fresh.length = b.fresh.length + 1 := by rw [hfresh]; simp
  refine ⟨fun m' hm' => ?_, fun start hstart => ?_, fun d hd => ?_, ?_, ?_, fun s hs => ?_,
    fun s hs => ?_⟩
  · obtain ⟨m, hm, hstarted⟩ := hminutes m' hm'
    rw [hsince, h.since m hm, hstarted]
  · exact hplace ▸ Nat.lt_succ_of_lt (h.started start (hsince ▸ hstart))
  · rw [hdraws] at hd
    rcases List.mem_append.mp hd with hd | hd
    · exact hplace ▸ Nat.lt_succ_of_lt (h.draws d hd)
    · rw [List.mem_singleton.mp hd, hplace]
      exact Nat.lt_succ_self _
  · rw [hlength, flowNumbers_succ, hfresh, List.map_append, h.fresh, ← h.last]
    rfl
  · rw [hlength, Function.iterate_succ_apply', ← h.last, hlast]
  · exact hplace ▸ Nat.lt_succ_of_lt (h.stopped s (hpast ▸ hs))
  · -- the call comes after the session
    have hs := hpast ▸ hs
    have hsame : b'.drawsIn s.minutes.started s.stopped =
        b.drawsIn s.minutes.started s.stopped := by
      have hlate : ¬ (s.minutes.started < p.place ∧ p.place < s.stopped) := by
        have := h.stopped s hs
        omega
      rw [drawsIn, hdraws, List.filter_append, ← drawsIn]
      simp [hlate]
    rw [hsame]
    exact h.past s hs

/-- A session starts, and the numbers begin anew. -/
theorem start (h : Numbered p b) {o : Options} {now : Int} {started : Capture}
    (hstart : p.capture.start o now = .ok started) :
    Numbered (p.step (.start o now)) (b.after p (.start o now)) := by
  simp only [Program.step, Program.obey, hstart, after_start_ok hstart]
  obtain ⟨-, -, _, _, -, -, -, heq⟩ := start_eq_ok hstart
  have hnone : ({ b with since := some p.place } : Flowbook).fresh = [] := by
    refine List.filter_eq_nil_iff.mpr fun d hd => ?_
    have := h.draws d hd
    simp only [Option.all_some, decide_eq_true_eq]
    omega
  refine ⟨?_, ?_, fun d hd => Nat.lt_succ_of_lt (h.draws d hd), ?_, ?_,
    fun s hs => Nat.lt_succ_of_lt (h.stopped s hs), h.past⟩
  · rintro m ⟨⟩
    rfl
  · rintro start ⟨⟩
    exact Nat.lt_succ_self _
  · rw [hnone]
    rfl
  · rw [hnone, heq]
    rfl

/-- A session is over: all that was given out since its start was given out
in it. -/
theorem stop {E : List (CollectorId × Int)} {F : List CollectorId} (h : Numbered p b)
    (hsound : Program.Sound E F p) {now : Int} {stopped : Recording × Capture}
    (hstop : p.capture.stop now = .ok stopped) :
    Numbered (p.step (.stop now)) (b.after p (.stop now)) := by
  simp only [Program.step, Program.obey, hstop, after]
  obtain ⟨live, hlive, -, heq⟩ := stopped_eq hstop
  obtain ⟨m, hm⟩ := hsound.exists_minutes hlive
  have hsame : b.drawsIn m.started p.place = b.fresh := by
    refine List.filter_congr fun d hd => ?_
    have := h.draws d hd
    simp [h.since m hm, this]
  refine ⟨fun _ hnone => absurd hnone (by simp),
    fun start hstart => Nat.lt_succ_of_lt (h.started start hstart),
    fun d hd => Nat.lt_succ_of_lt (h.draws d hd), h.fresh, ?_, fun s hs => ?_, fun s hs => ?_⟩
  · dsimp only
    rw [heq]
    exact h.last
  · rcases List.mem_append.mp hs with hs | hs
    · exact Nat.lt_succ_of_lt (h.stopped s hs)
    · rw [List.mem_singleton.mp hs]
      exact Nat.lt_succ_self _
  · rcases List.mem_append.mp hs with hs | hs
    · exact h.past s hs
    · rw [List.mem_singleton.mp hs, hm]
      show (b.drawsIn m.started p.place).map _ = flowNumbers (b.drawsIn m.started p.place).length
      rw [hsame]
      exact h.fresh

/-- A call goes on with the numbers. -/
theorem call (h : Numbered p b) (hthread : p.hasThread t = true) :
    Numbered (p.step (.call t request now)) (b.after p (.call t request now)) := by
  have hpast := p.serve_past t now request
  have hminutes : ∀ m', p.noted t now request = some m' →
      ∃ m, p.minutes = some m ∧ m'.started = m.started := by
    intro m' hm'
    obtain ⟨m, hm, rfl⟩ := Option.map_eq_some_iff.mp hm'
    refine ⟨m, hm, ?_⟩
    split <;> rfl
  simp only [Program.step, Program.obey, after, hthread, if_true]
  rcases drawn?_serve p t now request with ⟨hnone, hlast⟩ | ⟨hsome, hlast⟩
  · exact h.idle rfl hlast hminutes hpast rfl (by simp [enter, hnone])
  · exact h.draw rfl hlast hminutes hpast rfl (by simp [enter, hsome])

/-- **Every command goes on with the numbers.** -/
theorem step {E : List (CollectorId × Int)} {F : List CollectorId} (h : Numbered p b)
    (hsound : Program.Sound E F p) (command : Command) :
    Numbered (p.step command) (b.after p command) := by
  cases command with
  | start o now =>
    cases hstart : p.capture.start o now with
    | error cause =>
      simp only [Program.step, Program.obey, hstart, after_start_error hstart]
      exact h.idle rfl rfl (fun m hm => ⟨m, hm, rfl⟩) rfl rfl rfl
    | ok started => exact h.start hstart
  | stop now =>
    cases hstop : p.capture.stop now with
    | error cause =>
      simp only [Program.step, Program.obey, hstop, after]
      exact h.idle rfl rfl (fun m hm => ⟨m, hm, rfl⟩) rfl rfl rfl
    | ok stopped => exact h.stop hsound hstop
  | call t request now =>
    by_cases hthread : p.hasThread t = true
    · exact h.call hthread
    · simp only [Program.step, Program.obey, after, if_neg hthread]
      exact h.idle rfl rfl (fun m hm => ⟨m, hm, rfl⟩) rfl rfl rfl

end Numbered

/-- **The numbers go on through every run.** -/
theorem numbered_run (names : List (Option String)) (commands : List Command) :
    Numbered (Program.run names commands) (of names commands) := by
  induction commands using List.reverseRecOn with
  | nil => exact ⟨fun _ hnone => absurd hnone (by simp [Program.run]),
      fun _ hnone => absurd hnone (by simp [of]), fun _ hd => absurd hd List.not_mem_nil, rfl, rfl,
      fun _ hs => absurd hs List.not_mem_nil, fun _ hs => absurd hs List.not_mem_nil⟩
  | append_singleton commands command ih =>
    obtain ⟨E, F, hsound⟩ := Program.sound_run names commands
    rw [Program.run_append, of_append]
    exact ih.step hsound command

end Flowbook

end EventTrace
