import EventTrace.Proofs.Capture.Program
/-!
# Capture — each session records its own

Under options that leave nothing out, what a recording has of a thread is what
the minutes of its session have of it, numbered from zero, whatever sessions
came before and whichever writers the threads were left with. The minutes of
a session are what the calls between its start and its stop asked for, and
those of another session lie before or after them.
-/

namespace EventTrace

open Depot

/-- Whether no cap, rate, sampling or category leaves anything out. -/
def Options.isPlain (o : Options) : Bool :=
  o.isUncapped && o.maxEventsPerSecond == 0 && !o.hasSampling && !o.hasCategoryFilter

namespace Options

variable {o : Options}

theorem isUncapped_of_isPlain (h : o.isPlain = true) : o.isUncapped = true := by
  simp only [isPlain, Bool.and_eq_true] at h
  exact h.1.1.1

/-- Under plain options every event passes, and the tests remember nothing. -/
theorem screen_of_isPlain (h : o.isPlain = true) (id : Int) (kind : Kind) (now : Int) :
    (Screen.ofOptions o).screen id kind now = (.passed, Screen.ofOptions o) := by
  simp only [isPlain, Bool.and_eq_true, Bool.not_eq_true', beq_iff_eq] at h
  obtain ⟨⟨⟨-, hrate⟩, hsampling⟩, hcategory⟩ := h
  have hfilter : (Screen.ofOptions o).passesFilter id = (true, Screen.ofOptions o) := by
    simp [Screen.passesFilter, Screen.ofOptions, CategoryFilter.ofOptions?, hcategory]
  have hkeeps : (Screen.ofOptions o).keeps id kind = (true, Screen.ofOptions o) := by
    have hdisabled : (Screen.ofOptions o).sampler.isEnabled = false :=
      (Sampler.isEnabled_ofOptions o).trans hsampling
    simp [Screen.keeps, hdisabled]
  have hadmits : (Screen.ofOptions o).admits now = (true, Screen.ofOptions o) := by
    simp [Screen.admits, Screen.ofOptions, RateWindow.isEnabled, hrate]
  simp only [Screen.screen, hfilter, hkeeps, hadmits]

end Options

namespace Minutes

/-- One remark more is one event more of its thread. -/
theorem eventsOf_concat (m : Minutes) (r : Remark) (n : Int) :
    ({ m with remarks := m.remarks ++ [r] } : Minutes).eventsOf n = m.eventsOf n ++
      if n = (r.thread : Int) + 1 then [r.emission.event n r.stamp (m.eventsOf n).length]
      else [] := by
  unfold eventsOf remarksOf
  rw [List.filter_append, List.filter_singleton, List.length_mapIdx]
  by_cases hn : n = (r.thread : Int) + 1
  · simp [hn, List.mapIdx_append]
  · have hother : ((r.thread : Int) + 1 == n) = false := beq_eq_false_iff_ne.mpr (Ne.symm hn)
    simp [hn, hother]

end Minutes

namespace Capture

variable {c : Capture} {t : ThreadId} {live : LiveSession} {m : Minutes} {now : Reading}
  {E : List (CollectorId × Int)} {F : List CollectorId} {ended : List ThreadId}

/-- A session under plain options holds what its minutes have. -/
structure Keeping (live : LiveSession) (m : Minutes) (c : Capture) : Prop where
  unhindered : Unhindered live c
  screen : ∀ t < c.slots.size, c.screenOf live.options t = Screen.ofOptions live.options
  lane : ∀ n, c.lane live n = m.eventsOf n

/-- **An emission is held as it is minuted.** -/
theorem Keeping.emit (hk : Keeping live m c) (hplain : live.options.isPlain = true)
    (h : Laned E F ended c) (ht : t < c.slots.size) (hended : t ∉ ended)
    (hlive : c.session = some live) (e : Emission) (place : Nat) :
    Keeping live { m with remarks := m.remarks ++ [⟨place, t, e, now.stamp⟩] }
      (c.emit t e now) := by
  have hoffered := hk.unhindered.emit h ht hended hlive e now
  have hjudge : c.judge live.options t e now = (.passed, Screen.ofOptions live.options) := by
    rw [judge, hk.screen t ht]
    exact Options.screen_of_isPlain hplain e.id e.kind now.arrival
  refine ⟨hoffered.unhindered, ?_, ?_⟩
  · intro u hu
    rw [(SameOutline.emit c t e now).size] at hu
    rw [hoffered.screen u hu, hjudge]
    split
    · rfl
    · exact hk.screen u hu
  · intro n
    rw [hoffered.lane, hjudge, h.number t ht, hk.lane, Minutes.eventsOf_concat]
    simp only [true_and]

/-- A call is held as it is minuted, if it asked for anything. -/
theorem Keeping.utter (hk : Keeping live m c) (hplain : live.options.isPlain = true)
    (h : Laned E F ended c) (ht : t < c.slots.size) (hended : t ∉ ended)
    (hlive : c.session = some live) (e : Option Emission) (place : Nat) :
    Keeping live
      (match e with
        | some e => { m with remarks := m.remarks ++ [⟨place, t, e, now.stamp⟩] }
        | none => m)
      (c.utter t e now) := by
  cases e with
  | none => exact hk
  | some e => exact hk.emit hplain h ht hended hlive e place

/-- A thread that ends takes nothing with it. -/
theorem Keeping.endThread (hk : Keeping live m c) (h : Laned E F ended c)
    (hlive : c.session = some live) (t : ThreadId) : Keeping live m (c.endThread t) := by
  obtain ⟨ho, hlane, hscreen⟩ := hk.unhindered.dropWriter h hlive t
  refine ⟨ho, ?_, fun n => (hlane n).trans (hk.lane n)⟩
  intro u hu
  have hlt : u < c.slots.size := (SameOutline.dropWriter c t).size ▸ hu
  refine (hscreen live.options u).trans ?_
  split
  · rfl
  · exact hk.screen u hlt

end Capture

namespace Program

open Capture

variable {p : Program} {E : List (CollectorId × Int)} {F : List CollectorId}

/-- The session that runs holds what its minutes have, and past ones recorded
it. -/
structure Recorded (p : Program) : Prop where
  present : ∀ live m, p.capture.session = some live → p.minutes = some m →
    live.options.isPlain = true → Keeping live m p.capture
  past : ∀ s ∈ p.past, s.recording.options.isPlain = true →
    ∀ n, ofThread n s.recording.events = s.minutes.eventsOf n

theorem Recorded.step (hr : Recorded p) (h : Sound E F p) (command : Command) :
    Recorded (p.step command) := by
  have hstep := p.step_spec command
  generalize p.step command = p' at hstep ⊢
  cases hstep with
  | start hstart =>
    refine ⟨?_, hr.past⟩
    rintro live _ hlive ⟨⟩ hplain
    obtain ⟨live', hlive', rfl, -, hlane, hscreen, hopen⟩ := h.laned.opened hstart
    obtain rfl : live' = live := Option.some.inj (hlive'.symm.trans hlive)
    exact ⟨hopen (Options.isUncapped_of_isPlain hplain), fun t _ => hscreen t, hlane⟩
  | stop hstop =>
    obtain ⟨live, hlive, hoptions, hlane⟩ := stop_lane hstop
    obtain ⟨_, -, -, heq⟩ := stopped_eq hstop
    refine ⟨fun live _ hnone => ?_, ?_⟩
    · rw [heq] at hnone
      exact absurd hnone (by simp)
    · intro s hs
      rcases List.mem_append.mp hs with hs | hs
      · exact hr.past s hs
      · obtain ⟨m, hm⟩ := h.exists_minutes hlive
        rw [List.mem_singleton.mp hs, hm]
        intro hplain n
        rw [hoptions] at hplain
        exact (hlane n).trans ((hr.present live m hlive hm hplain).lane n)
  | @serve t request now hthread hrequest =>
    obtain ⟨hlt, hended⟩ := Sound.thread_of_hasThread hthread
    obtain ⟨flow, hserve⟩ := h.capture_serve t now hrequest
    obtain ⟨houtline, -⟩ := h.serve_capture hthread now hrequest
    refine ⟨?_, by rw [serve_past]; exact hr.past⟩
    intro live _ hlive hnoted hplain
    have hlive₀ : p.capture.session = some live := houtline.session.symm.trans hlive
    obtain ⟨m, hm, rfl⟩ := Option.map_eq_some_iff.mp hnoted
    have hk := hr.present live m hlive₀ hm hplain
    have hk₀ : Keeping live m { p.capture with lastFlow := flow } :=
      ⟨hk.unhindered.renumber flow, hk.screen, hk.lane⟩
    show Keeping live _ (p.serve t now request).capture
    rw [hserve]
    exact hk₀.utter hplain (h.laned.renumber flow) hlt hended hlive₀ _ p.place
  | @endThread t now hthread =>
    refine ⟨fun live m hlive hm hplain => ?_, hr.past⟩
    have hlive₀ : p.capture.session = some live :=
      (SameOutline.dropWriter p.capture t).session.symm.trans hlive
    exact (hr.present live m hlive₀ hm hplain).endThread h.laned hlive₀ t
  | ignored _ => exact ⟨hr.present, hr.past⟩

theorem recorded_run (names : List (Option String)) (commands : List Command) :
    Recorded (run names commands) := by
  refine run_induction names ⟨?_, fun _ hs => absurd hs List.not_mem_nil⟩
    (fun command h hr => hr.step h command) commands
  intro _ _ hnone
  exact absurd hnone (by simp [Capture.ofThreads])

/-! ## What minutes are of -/

/-- What the command in some place asked to have recorded. -/
def remarkAt? (names : List (Option String)) (commands : List Command) (place : Nat) :
    Option Remark :=
  match commands[place]? with
  | some (.call t request now) =>
    let p := run names (commands.take place)
    if p.hasThread t then
      (p.remark? t request).map fun e => ⟨place, t, e, now.stamp⟩
    else none
  | _ => none

/-- What the commands between two places asked to have recorded. -/
def remarksIn (names : List (Option String)) (commands : List Command) (first last : Nat) :
    List Remark :=
  (List.range last).filterMap fun place =>
    if first < place then remarkAt? names commands place else none

section

variable {names : List (Option String)} {commands : List Command} {command : Command}
  {place first last : Nat}

/-- Later commands do not matter. -/
theorem remarkAt?_append (h : place < commands.length) :
    remarkAt? names (commands ++ [command]) place = remarkAt? names commands place := by
  rw [remarkAt?, remarkAt?, List.getElem?_append_left h,
    List.take_append_of_le_length (Nat.le_of_lt h)]

theorem remarksIn_append (h : last ≤ commands.length) :
    remarksIn names (commands ++ [command]) first last = remarksIn names commands first last := by
  refine List.filterMap_congr ?_
  intro place hplace
  rw [remarkAt?_append (Nat.lt_of_lt_of_le (List.mem_range.mp hplace) h)]

/-- One command more adds what it asks for. -/
theorem remarksIn_concat (h : first < commands.length) :
    remarksIn names (commands ++ [command]) first (commands.length + 1) =
      remarksIn names commands first commands.length ++
        (remarkAt? names (commands ++ [command]) commands.length).toList := by
  have hbefore : remarksIn names (commands ++ [command]) first commands.length =
      remarksIn names commands first commands.length := remarksIn_append (Nat.le_refl _)
  rw [← hbefore, remarksIn, List.range_succ, List.filterMap_append, ← remarksIn]
  congr 1
  simp only [List.filterMap_cons, List.filterMap_nil, if_pos h]
  cases remarkAt? names (commands ++ [command]) commands.length <;> rfl

theorem remarkAt?_length (names : List (Option String)) (commands : List Command)
    (command : Command) : remarkAt? names (commands ++ [command]) commands.length =
      match command with
      | .call t request now =>
        if (run names commands).hasThread t then
          ((run names commands).remark? t request).map fun e =>
            ⟨commands.length, t, e, now.stamp⟩
        else none
      | _ => none := by
  rw [remarkAt?, List.getElem?_concat_length, List.take_left']
  · cases command <;> rfl
  · rfl

/-- Nothing is asked for after the last command. -/
theorem remarksIn_self : remarksIn names commands place (place + 1) = [] := by
  refine List.filterMap_eq_nil_iff.mpr ?_
  intro i hi
  have := List.mem_range.mp hi
  rw [if_neg (by omega)]

/-- The minutes of every session are what was asked for between its start and
its stop, or so far, and no session starts before an earlier one is over. -/
structure Minuted (names : List (Option String)) (commands : List Command) (p : Program) :
    Prop where
  place : p.place = commands.length
  present : ∀ m, p.minutes = some m → m.started < commands.length ∧
    m.remarks = remarksIn names commands m.started commands.length
  past : ∀ s ∈ p.past, s.stopped < commands.length ∧ s.minutes.started < s.stopped ∧
    s.minutes.remarks = remarksIn names commands s.minutes.started s.stopped
  apart : p.past.Pairwise fun s s' => s.stopped < s'.minutes.started
  earlier : ∀ s ∈ p.past, ∀ m, p.minutes = some m → s.stopped < m.started

namespace Minuted

variable {p p' : Program}

/-- One command more does not change what past sessions are of. -/
theorem past_concat (h : Minuted names commands p) (command : Command) : ∀ s ∈ p.past,
    s.stopped < (commands ++ [command]).length ∧ s.minutes.started < s.stopped ∧
      s.minutes.remarks = remarksIn names (commands ++ [command]) s.minutes.started s.stopped := by
  intro s hs
  obtain ⟨hstopped, hstarted, hremarks⟩ := h.past s hs
  rw [List.length_append, List.length_singleton, remarksIn_append (Nat.le_of_lt hstopped)]
  exact ⟨Nat.lt_succ_of_lt hstopped, hstarted, hremarks⟩

theorem place_concat (h : Minuted names commands p) (hplace : p'.place = p.place + 1) :
    p'.place = (commands ++ [command]).length := by
  rw [hplace, h.place, List.length_append, List.length_singleton]

/-- A command that asks for nothing leaves the minutes as they are. -/
theorem silent (h : Minuted names commands p) (hplace : p'.place = p.place + 1)
    (hminutes : p'.minutes = p.minutes) (hpast : p'.past = p.past)
    (hnone : remarkAt? names (commands ++ [command]) commands.length = none) :
    Minuted names (commands ++ [command]) p' := by
  refine ⟨h.place_concat hplace, fun m hm => ?_, hpast ▸ h.past_concat command, hpast ▸ h.apart,
    fun s hs m hm => h.earlier s (hpast ▸ hs) m (hminutes ▸ hm)⟩
  obtain ⟨hstarted, hremarks⟩ := h.present m (hminutes ▸ hm)
  rw [List.length_append, List.length_singleton, remarksIn_concat hstarted, hnone, hremarks]
  exact ⟨Nat.lt_succ_of_lt hstarted, (List.append_nil _).symm⟩

/-- A command that asks for something adds it to the minutes. -/
theorem heard (h : Minuted names commands p) {r : Remark} (hplace : p'.place = p.place + 1)
    (hminutes : p'.minutes = p.minutes.map fun m => { m with remarks := m.remarks ++ [r] })
    (hpast : p'.past = p.past)
    (hsome : remarkAt? names (commands ++ [command]) commands.length = some r) :
    Minuted names (commands ++ [command]) p' := by
  refine ⟨h.place_concat hplace, fun m' hm' => ?_, hpast ▸ h.past_concat command,
    hpast ▸ h.apart, fun s hs m' hm' => ?_⟩
  · obtain ⟨m, hm, rfl⟩ := Option.map_eq_some_iff.mp (hminutes ▸ hm')
    obtain ⟨hstarted, hremarks⟩ := h.present m hm
    rw [List.length_append, List.length_singleton, remarksIn_concat hstarted, hsome, hremarks]
    exact ⟨Nat.lt_succ_of_lt hstarted, rfl⟩
  · obtain ⟨m, hm, rfl⟩ := Option.map_eq_some_iff.mp (hminutes ▸ hm')
    exact h.earlier s (hpast ▸ hs) m hm

/-- A start begins new minutes, after all that were before. -/
theorem start (h : Minuted names commands p) (hplace : p'.place = p.place + 1)
    (hminutes : p'.minutes = some { started := p.place }) (hpast : p'.past = p.past) :
    Minuted names (commands ++ [command]) p' := by
  refine ⟨h.place_concat hplace, fun m hm => ?_, hpast ▸ h.past_concat command, hpast ▸ h.apart,
    fun s hs m hm => ?_⟩
  · obtain rfl := Option.some.inj (hminutes.symm.trans hm)
    rw [h.place, List.length_append, List.length_singleton, remarksIn_self]
    exact ⟨Nat.lt_succ_self _, rfl⟩
  · obtain rfl := Option.some.inj (hminutes.symm.trans hm)
    rw [h.place]
    exact (h.past s (hpast ▸ hs)).1

/-- A stop puts the minutes there are with the past ones. -/
theorem stop (h : Minuted names commands p) {m : Minutes} {s : PastSession}
    (hm : p.minutes = some m) (hplace : p'.place = p.place + 1) (hminutes : p'.minutes = none)
    (hpast : p'.past = p.past ++ [s]) (hs : s.minutes = m) (hstopped : s.stopped = p.place) :
    Minuted names (commands ++ [command]) p' := by
  obtain ⟨hstarted, hremarks⟩ := h.present m hm
  refine ⟨h.place_concat hplace, fun m' hm' => absurd (hminutes.symm.trans hm') (by simp), ?_, ?_,
    fun _ _ m' hm' => absurd (hminutes.symm.trans hm') (by simp)⟩
  · intro s' hs'
    rw [hpast] at hs'
    rcases List.mem_append.mp hs' with hs' | hs'
    · exact h.past_concat command s' hs'
    · rw [List.mem_singleton.mp hs', hs, hstopped, h.place, remarksIn_append (Nat.le_refl _),
        List.length_append, List.length_singleton]
      exact ⟨Nat.lt_succ_self _, hstarted, hremarks⟩
  · rw [hpast]
    refine List.pairwise_append.mpr
      ⟨h.apart, List.pairwise_singleton _ _, fun s' hs' s'' hs'' => ?_⟩
    rw [List.mem_singleton.mp hs'', hs]
    exact h.earlier s' hs' m hm

end Minuted

/-- **Minutes are of what was asked for**, and of nothing else. -/
theorem minuted_run (names : List (Option String)) (commands : List Command) :
    Minuted names commands (run names commands) := by
  induction commands using List.reverseRecOn with
  | nil => exact ⟨rfl, fun _ hnone => absurd hnone (by simp [run]),
      fun _ hs => absurd hs List.not_mem_nil, List.Pairwise.nil,
      fun _ hs => absurd hs List.not_mem_nil⟩
  | append_singleton commands command ih =>
    obtain ⟨E, F, h⟩ := sound_run names commands
    have hlast := remarkAt?_length names commands command
    rw [run_append]
    have hstep := (run names commands).step_spec command
    generalize (run names commands).step command = p' at hstep ⊢
    cases hstep with
    | start hstart => exact ih.start rfl rfl rfl
    | stop hstop =>
      obtain ⟨live, hlive, -⟩ := stop_lane hstop
      obtain ⟨m, hm⟩ := h.exists_minutes hlive
      exact ih.stop hm rfl rfl rfl (by rw [hm]; rfl) rfl
    | @serve t request now hthread hrequest =>
      have hpast := serve_past (run names commands) t now request
      simp only [hthread, if_true] at hlast
      cases hremark : (run names commands).remark? t request with
      | none =>
        rw [hremark] at hlast
        have hnoted : (run names commands).noted t now request = (run names commands).minutes := by
          simp [noted, hremark]
        exact ih.silent rfl hnoted hpast hlast
      | some e =>
        rw [hremark, Option.map_some] at hlast
        refine ih.heard rfl ?_ hpast hlast
        simp [noted, hremark, ih.place]
    | @endThread t now hthread =>
      refine ih.silent rfl rfl rfl ?_
      rw [hlast]
      simp [remark?]
    | ignored hidle =>
      refine ih.silent rfl rfl rfl ?_
      rw [hlast]
      cases command with
      | call t request now => simp [hidle t request now rfl]
      | _ => rfl

end

end Program

/-- **Each session records its own emissions.** In every run, the minutes of a
session are what the calls between its start and its stop asked for, in their
order, and no session starts before an earlier one is over; and what the
recording of a session under plain options has of a thread is what its minutes
have of it, with the thread's number and numbered from zero. -/
theorem sessions_record_their_own (names : List (Option String)) (commands : List Command) :
    let p := Program.run names commands
    (∀ s ∈ p.past, s.minutes.started < s.stopped ∧
      s.minutes.remarks = Program.remarksIn names commands s.minutes.started s.stopped ∧
      (s.recording.options.isPlain = true →
        ∀ n, ofThread n s.recording.events = s.minutes.eventsOf n)) ∧
    p.past.Pairwise fun s s' => s.stopped < s'.minutes.started := by
  intro p
  have hminuted := Program.minuted_run names commands
  have hrecorded := Program.recorded_run names commands
  refine ⟨fun s hs => ?_, hminuted.apart⟩
  obtain ⟨-, hstarted, hremarks⟩ := hminuted.past s hs
  exact ⟨hstarted, hremarks, hrecorded.past s hs⟩

/-- A scope that is opened in one session and closed in the next, with points
on another thread, between the sessions and in the second one. -/
def Program.twoSessions : Program :=
  run [none, none]
    [.start {} 0, .call 0 (.openScope 7) ⟨1, 1⟩, .call 1 (.instant 3) ⟨2, 2⟩, .stop 3,
      .call 0 (.instant 5) ⟨4, 4⟩, .start {} 5, .call 0 (.closeScope 0) ⟨6, 6⟩,
      .call 0 (.instant 6) ⟨7, 7⟩, .stop 8]

/-- The first session has the begin, the second has no end for it, and the
point between them is in neither. -/
theorem sessions_record_their_own_twoSessions :
    (∀ s ∈ Program.twoSessions.past, s.recording.options.isPlain = true) ∧
    (∀ s ∈ Program.twoSessions.past,
      ∀ n, ofThread n s.recording.events = s.minutes.eventsOf n) ∧
    (Program.twoSessions.past.map fun s => (s.minutes.eventsOf 1).map Event.id) = [[7], [6]] ∧
    (Program.twoSessions.past.map fun s => (s.minutes.eventsOf 2).map Event.id) = [[3], []] := by
  have hplain : ∀ s ∈ Program.twoSessions.past, s.recording.options.isPlain = true := by
    decide +kernel
  refine ⟨hplain, fun s hs => ?_, by decide +kernel, by decide +kernel⟩
  exact ((sessions_record_their_own _ _).1 s hs).2.2 (hplain s hs)

end EventTrace
