import EventTrace.Proofs.Capture.Alignment
import EventTrace.Proofs.Capture.Minutes
/-!
# Capture — guards dropped innermost first

In a program whose threads drop their guards innermost first, every session
without caps and without a rate limit stays balanced, whatever its rates and
categories, and whichever guards outlive a session or were made before it
(`Program.balanced_serve`). With a clock that goes on, its recording then
profiles without damage, but for the guards that are open when it stops.
-/

namespace EventTrace

open Capture

/-- The clock as a call reads it. -/
def Command.stamp? : Command → Option Int
  | .call _ _ now => some now.stamp
  | .start .. | .stop _ => none

/-- The clock as the calls read it, one after the other. -/
def stampsOf (commands : List Command) : List Int := commands.filterMap Command.stamp?

theorem stampsOf_concat (commands : List Command) (command : Command) :
    stampsOf (commands ++ [command]) = stampsOf commands ++ command.stamp?.toList := by
  rw [stampsOf, List.filterMap_append, ← stampsOf]
  cases h : command.stamp? <;> simp [h]

/-- A clock goes on: no reading is before an earlier one, or further from it
than a word can tell. Of a clock that starts at zero no two readings are that
far apart (`clockGoesOn_of_nonneg`). -/
def ClockGoesOn (stamps : List Int) : Prop :=
  stamps.Pairwise fun a b => a ≤ b ∧ b - a ≤ TickRate.maxTicks

instance (stamps : List Int) : Decidable (ClockGoesOn stamps) :=
  inferInstanceAs (Decidable (stamps.Pairwise fun a b => a ≤ b ∧ b - a ≤ TickRate.maxTicks))

/-- **A clock that starts at zero and never decreases goes on.** -/
theorem clockGoesOn_of_nonneg {stamps : List Int} (hordered : stamps.Pairwise (· ≤ ·))
    (hshown : ∀ stamp ∈ stamps, 0 ≤ stamp ∧ stamp ≤ TickRate.maxTicks) : ClockGoesOn stamps := by
  refine hordered.imp_of_mem fun {a b} ha hb hle => ⟨hle, ?_⟩
  have := (hshown a ha).1
  have := (hshown b hb).2
  omega

/-- Words hold how far any two readings are apart. -/
theorem ClockGoesOn.apart {stamps : List Int} (h : ClockGoesOn stamps) {a b : Int}
    (ha : a ∈ stamps) (hb : b ∈ stamps) : b - a ≤ TickRate.maxTicks := by
  have hzero : (0 : Int) ≤ TickRate.maxTicks := by decide
  refine List.Pairwise.forall_of_forall_of_flip (fun x _ => ?_) (h.imp And.right)
    (h.imp fun {a b} hab => ?_) ha hb
  · rw [Int.sub_self]
    exact hzero
  · show a - b ≤ TickRate.maxTicks
    omega

/-- Whether a profile replays the events of a thread. -/
def ProfileOptions.covers (o : ProfileOptions) (t : ThreadId) : Bool :=
  o.onlyThread.all (· == (t : Int) + 1)

namespace Program

variable {p q : Program} {t : ThreadId} {now : Reading} {request : Request} {held : HeldGuard}
  {live : LiveSession} {stamps : List Int} {E : List (CollectorId × Int)} {F : List CollectorId}

/-! ## Innermost first -/

/-- Whether a guard that a command drops is the innermost one that its thread
has open. -/
def dropsInnermost (p : Program) : Command → Bool
  | .call t (.closeScope i) _ =>
    !(p.hasThread t && (p.guard? t i).isSome) ||
      (p.guards.drop (i + 1)).all fun g => g.thread != t || g.dropped
  | _ => true

/-- Whether commands drop every guard innermost first on its thread. -/
def dropsLastFirst (p : Program) : List Command → Bool
  | [] => true
  | command :: rest => p.dropsInnermost command && (p.step command).dropsLastFirst rest

theorem dropsLastFirst_concat (p : Program) (commands : List Command) (command : Command) :
    p.dropsLastFirst (commands ++ [command]) =
      (p.dropsLastFirst commands && (commands.foldl step p).dropsInnermost command) := by
  induction commands generalizing p with
  | nil => simp [dropsLastFirst]
  | cons first rest ih =>
    rw [List.cons_append, dropsLastFirst, ih, dropsLastFirst, List.foldl_cons, Bool.and_assoc]

/-! ## Open guards -/

/-- The open guards that the thread of some number made in the session that
runs, the innermost first. -/
def openOf (p : Program) (n : Int) : List HeldGuard :=
  (p.guards.filter fun g =>
    (g.thread : Int) + 1 == n && (!g.dropped && g.session == some p.past.length)).reverse

/-- The open guards whose begin some session recorded, by the number of the
session. -/
def leftOpen (p : Program) (i : Nat) : List HeldGuard :=
  p.guards.filter fun g => g.written && (!g.dropped && g.session == some i)

theorem openOf_congr (hguards : q.guards = p.guards) (hpast : q.past = p.past) :
    q.openOf = p.openOf := by
  funext n
  rw [openOf, openOf, hguards, hpast]

/-- A guard that is made is the innermost of its thread. -/
theorem openOf_made (hguards : q.guards = p.guards ++ [held]) (hpast : q.past = p.past)
    (hopen : held.dropped = false) (hsession : held.session = some p.past.length) :
    q.openOf ((held.thread : Int) + 1) = held :: p.openOf ((held.thread : Int) + 1) ∧
      ∀ n ≠ (held.thread : Int) + 1, q.openOf n = p.openOf n := by
  refine ⟨?_, fun n hn => ?_⟩
  · simp [openOf, hguards, hpast, hopen, hsession]
  · simp [openOf, hguards, hpast, Ne.symm hn]

/-- A guard that is dropped innermost first was the innermost of its thread, if
it was made in the session that runs. -/
theorem openOf_dropped {i : Nat} (hheld : p.guard? t i = some held)
    (hguards : q.guards = p.guards.set i { held with dropped := true }) (hpast : q.past = p.past)
    (hlater : ∀ g ∈ p.guards.drop (i + 1), g.thread = t → g.dropped = true) :
    p.openOf ((t : Int) + 1) =
        (if held.session = some p.past.length then [held] else []) ++ q.openOf ((t : Int) + 1) ∧
      ∀ n ≠ (t : Int) + 1, q.openOf n = p.openOf n := by
  obtain ⟨hget, hopen⟩ := Option.filter_eq_some_iff.mp hheld
  obtain ⟨hlt, hget⟩ := List.getElem?_eq_some_iff.mp hget
  rw [Bool.and_eq_true, beq_iff_eq, Bool.not_eq_true'] at hopen
  obtain ⟨hthread, hopen⟩ := hopen
  have hbefore : p.guards = p.guards.take i ++ held :: p.guards.drop (i + 1) := by
    rw [← hget, List.getElem_cons_drop, List.take_append_drop]
  have hafter : q.guards =
      p.guards.take i ++ { held with dropped := true } :: p.guards.drop (i + 1) := by
    rw [hguards, List.set_eq_take_append_cons_drop, if_pos hlt]
  generalize p.guards.take i = before, p.guards.drop (i + 1) = after at hbefore hafter hlater
  refine ⟨?_, fun n hn => ?_⟩
  · -- no guard after it is open on its thread
    have hnone : after.filter (fun g => (g.thread : Int) + 1 == (t : Int) + 1 &&
        (!g.dropped && g.session == some p.past.length)) = [] := by
      refine List.filter_eq_nil_iff.mpr fun g hg hboth => ?_
      simp only [Bool.and_eq_true, beq_iff_eq, Bool.not_eq_true'] at hboth
      obtain ⟨hnumber, hopen, -⟩ := hboth
      have hdropped := hlater g hg (Int.ofNat_inj.mp (by omega))
      exact absurd (hopen.symm.trans hdropped) (by simp)
    rw [openOf, openOf, hafter, hpast, hbefore]
    simp only [List.filter_append, List.filter_cons, hnone]
    by_cases hsession : held.session = some p.past.length
    · simp [hthread, hopen, hsession]
    · simp [hthread, hopen, hsession]
  · have hother : ((held.thread : Int) + 1 == n) = false := by
      rw [hthread]
      exact beq_eq_false_iff_ne.mpr (Ne.symm hn)
    rw [openOf, openOf, hafter, hpast, hbefore]
    simp only [List.filter_append, List.filter_cons, hother, Bool.false_and]
    rfl

/-- The begins that the lane of a thread leaves open are of its guards. -/
theorem length_recordedIds_openOf (p : Program) (n : Int) :
    (recordedIds (p.openOf n)).length =
      (p.leftOpen p.past.length).countP fun g => (g.thread : Int) + 1 == n := by
  rw [recordedIds, List.length_map, openOf, leftOpen, List.filter_reverse, List.length_reverse,
    List.filter_filter, List.countP_filter, List.countP_eq_length_filter]
  congr 1
  refine List.filter_congr fun g _ => ?_
  rw [Bool.and_left_comm]

/-- What a call asks for is no scope, unless it makes or drops a guard. -/
theorem isScope_of_remark? {e : Emission} (h : p.remark? t request = some e)
    (hopen : ∀ id, request ≠ .openScope id)
    (hclose : ∀ i, request = .closeScope i → p.guard? t i = none) : e.kind.isScope = false := by
  have hhandle : ∀ (handle : FlowHandle) (kind : Kind), kind.isScope = false →
      handle.remark? kind = some e → e.kind.isScope = false := by
    intro handle kind hkind he
    unfold FlowHandle.remark? at he
    split at he
    · rw [← Option.some.inj he]
      exact hkind
    · exact absurd he (by simp)
  cases request with
  | openScope id => exact absurd rfl (hopen id)
  | closeScope i =>
    simp only [remark?, hclose i rfl] at h
    exact absurd h (by simp)
  | instant | counter | startNewFlow | startFlow | openFlow =>
    rw [← Option.some.inj h]
    rfl
  | link id kind flow =>
    simp only [remark?, Option.ite_none_left_eq_some, Option.some.injEq] at h
    rw [← h.2]
    exact Kind.not_isScope_of_isFlow kind.2
  | stepHandle | endHandle | stepFlow | dropFlow =>
    obtain ⟨_, -, he⟩ := Option.bind_eq_some_iff.mp h
    exact hhandle _ _ rfl he
  | newFlow | makeHandle | takeHandle | endThread => exact absurd h (by simp [remark?])

/-! ## Calls -/

/-- **A call that drops innermost first keeps a session balanced** with the
guards that are then open. -/
theorem balanced_serve (hb : Balanced live p.ended p.openOf p.capture) (h : Sound E F p)
    (hlive : p.capture.session = some live) (hthread : p.hasThread t = true)
    (hrequest : request ≠ .endThread) (hdrops : p.dropsInnermost (.call t request now) = true) :
    Balanced live p.ended (p.serve t now request).openOf (p.serve t now request).capture := by
  obtain ⟨hlt, hended⟩ := Sound.thread_of_hasThread hthread
  have haligned := hb.aligned t hlt hended
  have hpast := p.serve_past t now request
  obtain ⟨flow, hserve⟩ := h.capture_serve t now hrequest
  have hlaned := h.laned.renumber flow
  have hb₀ := hb.renumber flow
  rcases p.serve_guards t now request with
    ⟨id, rfl, hguards⟩ | ⟨i, held, rfl, hheld, hguards⟩ | ⟨hopen, hclose, hguards⟩
  · -- a guard is made, and its begin offered
    have hrunning := h.laned.isRunning hlive
    have hsession : (p.opened t id now).session = some p.past.length := by
      rw [(h.opened_spec t id now).2, if_pos hrunning]
    have hid : id = (p.opened t id now).guard.id := by
      unfold opened openScope
      split <;> rfl
    have hwritten : (p.opened t id now).written = _ :=
      (hb.unhindered.emit h.laned hlt hended hlive { id, kind := .scopeBegin } now).writes
    obtain ⟨hself, hothers⟩ := openOf_made hguards hpast rfl hsession
    have hcapture : (p.serve t now (.openScope id)).capture =
        p.capture.emit t { id, kind := .scopeBegin } now := openScope_snd p.capture t id now
    rw [hcapture]
    exact hb.emit h.laned hlt hended hlive (hself ▸ haligned.opens hid rfl hwritten) hothers
  · -- a guard is dropped, and its end offered in the session it was made in
    obtain ⟨-, rfl, -⟩ := mem_of_guard? hheld
    have hlater : ∀ g ∈ p.guards.drop (i + 1), g.thread = held.thread → g.dropped = true := by
      simpa [dropsInnermost, hthread, hheld, or_iff_not_imp_left] using hdrops
    obtain ⟨hself, hothers⟩ := openOf_dropped hheld hguards hpast hlater
    rw [hserve]
    by_cases hsession : held.session = some p.past.length
    · have hremark : p.remark? held.thread (.closeScope i) =
          some { id := held.guard.id, kind := .scopeEnd } := by simp [remark?, hheld, hsession]
      rw [if_pos hsession] at hself
      rw [hself] at haligned
      rw [hremark]
      exact hb₀.emit hlaned hlt hended hlive (hself ▸ haligned.closes rfl rfl) hothers
    · have hremark : p.remark? held.thread (.closeScope i) = none := by
        simp [remark?, hheld, hsession]
      rw [if_neg hsession, List.nil_append] at hself
      have hsame : (p.serve held.thread now (.closeScope i)).openOf = p.openOf := by
        funext n
        by_cases hn : n = (held.thread : Int) + 1
        · rw [hn, hself]
        · exact hothers n hn
      rw [hremark, hsame]
      exact hb₀
  · rw [hserve, openOf_congr hguards hpast]
    cases hremark : p.remark? t request with
    | none => exact hb₀
    | some e =>
      have hscope := isScope_of_remark? hremark hopen hclose
      exact hb₀.emit hlaned hlt hended hlive (haligned.passes hscope) fun _ _ => rfl

/-- A call no earlier than all before it keeps the lanes in order. -/
theorem timely_serve (htimely : Timely live stamps p.capture) (ho : Unhindered live p.capture)
    (h : Sound E F p) (hlive : p.capture.session = some live) (hthread : p.hasThread t = true)
    (hrequest : request ≠ .endThread) (hclock : ∀ stamp ∈ stamps, stamp ≤ now.stamp) :
    Timely live (stamps ++ [now.stamp]) (p.serve t now request).capture := by
  obtain ⟨hlt, hended⟩ := Sound.thread_of_hasThread hthread
  obtain ⟨flow, hserve⟩ := h.capture_serve t now hrequest
  have htimely₀ : Timely live stamps { p.capture with lastFlow := flow } :=
    ⟨htimely.ordered, htimely.stamped⟩
  rw [hserve]
  cases p.remark? t request with
  | none => exact htimely₀.mono (fun _ => rfl) (List.subset_append_left _ _)
  | some e =>
    have hoffered := (ho.renumber flow).emit (h.laned.renumber flow) hlt hended hlive e now
    exact htimely₀.emit hoffered hclock

/-! ## Runs -/

/-- A session that runs without caps and without a rate limit is balanced, and
its lanes are in order. -/
def Steady (stamps : List Int) (p : Program) : Prop :=
  ∀ live, p.capture.session = some live → live.options.isUnlimited = true →
    Balanced live p.ended p.openOf p.capture ∧ Timely live stamps p.capture

/-- A session starts with nothing open. -/
theorem steady_start (h : Sound E F p) {options : Options} {time : Int} {c : Capture}
    (hstart : p.capture.start options time = .ok c) (minutes : Option Minutes) (place : Nat) :
    Steady stamps { p with capture := c, minutes, place } := by
  intro live hlive hunlimited
  obtain ⟨live', hlive', rfl, -, hlane, hscreen, hopen⟩ := h.laned.opened hstart
  obtain rfl : live' = live := Option.some.inj (hlive'.symm.trans hlive)
  rw [Options.isUnlimited, Bool.and_eq_true, beq_iff_eq] at hunlimited
  -- every guard there is was made in a session that is over
  have hnone : ∀ n, ({ p with capture := c, minutes, place } : Program).openOf n = [] := by
    intro n
    obtain ⟨-, hidle, -⟩ := start_eq_ok hstart
    refine List.reverse_eq_nil_iff.mpr (List.filter_eq_nil_iff.mpr fun g hg hboth => ?_)
    simp only [Bool.and_eq_true, beq_iff_eq] at hboth
    exact absurd ((h.session g hg _ hboth.2.2).2 hidle) (Nat.lt_irrefl _)
  refine ⟨⟨hopen hunlimited.1, fun t _ _ => ?_, fun n => ?_⟩, fun n => ?_, fun n e he => ?_⟩
  · rw [hnone, hscreen]
    exact .start hunlimited.2
  · rw [hnone, hlane]
    rfl
  · rw [hlane]
    exact List.Pairwise.nil
  · rw [hlane] at he
    exact absurd he List.not_mem_nil

/-- **A command that drops innermost first, at a time that is not earlier,
keeps a program steady.** -/
theorem Steady.step {commands : List Command} {command : Command}
    (hs : Steady (stampsOf commands) p) (h : Sound E F p)
    (hdrops : p.dropsInnermost command = true)
    (hclock : ∀ stamp ∈ stampsOf commands, ∀ later ∈ command.stamp?, stamp ≤ later) :
    Steady (stampsOf (commands ++ [command])) (p.step command) := by
  rw [stampsOf_concat]
  have hstep := p.step_spec command
  generalize p.step command = p' at hstep ⊢
  cases hstep with
  | start hstart => exact steady_start h hstart _ _
  | stop hstop =>
    obtain ⟨_, -, -, heq⟩ := stopped_eq hstop
    intro live hnone
    rw [heq] at hnone
    exact absurd hnone (by simp)
  | @serve t request now hthread hrequest =>
    intro live hlive hunlimited
    have hlive₀ : p.capture.session = some live :=
      (h.serve_capture hthread now hrequest).1.session.symm.trans hlive
    obtain ⟨hb, htimely⟩ := hs live hlive₀ hunlimited
    refine ⟨?_, timely_serve htimely hb.unhindered h hlive₀ hthread hrequest
      fun stamp hstamp => hclock stamp hstamp _ rfl⟩
    show Balanced live (p.serve t now request).ended (p.serve t now request).openOf _
    rw [p.serve_ended t now hrequest]
    exact balanced_serve hb h hlive₀ hthread hrequest hdrops
  | @endThread t now hthread =>
    intro live hlive hunlimited
    have hlive₀ : p.capture.session = some live :=
      (SameOutline.dropWriter p.capture t).session.symm.trans hlive
    obtain ⟨hb, htimely⟩ := hs live hlive₀ hunlimited
    obtain ⟨-, hlane, -⟩ := hb.unhindered.dropWriter h.laned hlive₀ t
    exact ⟨hb.endThread h.laned hlive₀ t, htimely.mono hlane (List.subset_append_left _ _)⟩
  | ignored _ =>
    intro live hlive hunlimited
    obtain ⟨hb, htimely⟩ := hs live hlive hunlimited
    exact ⟨hb, htimely.mono (fun _ => rfl) (List.subset_append_left _ _)⟩

theorem steady_run (names : List (Option String)) (commands : List Command)
    (hdrops : ({ capture := .ofThreads names } : Program).dropsLastFirst commands = true)
    (hclock : (stampsOf commands).Pairwise (· ≤ ·)) :
    Steady (stampsOf commands) (run names commands) := by
  induction commands using List.reverseRecOn with
  | nil =>
    intro _ hnone
    exact absurd hnone (by simp [run, Capture.ofThreads])
  | append_singleton commands command ih =>
    rw [dropsLastFirst_concat, Bool.and_eq_true] at hdrops
    rw [stampsOf_concat] at hclock
    obtain ⟨hbefore, -, hlater⟩ := List.pairwise_append.mp hclock
    obtain ⟨E, F, h⟩ := sound_run names commands
    rw [run_append]
    exact (ih hdrops.1 hbefore).step h hdrops.2 fun stamp hstamp later hnow =>
      hlater stamp hstamp later (Option.mem_toList.mpr hnow)

/-! ## Profiles -/

/-- **A session that stops profiles without damage**, strict or not, but for
the guards whose begin it recorded and that are open. -/
theorem profile_of_stop (hs : Steady stamps p) {time : Int} {stopped : Recording × Capture}
    (hstop : p.capture.stop time = .ok stopped)
    (hclock : ClockGoesOn stamps) (hunlimited : stopped.1.options.isUnlimited = true)
    (o : ProfileOptions) : (stopped.1.profile o).anomalies =
      { unmatchedBegin := (p.leftOpen p.past.length).countP (o.covers ·.thread) } := by
  obtain ⟨live, hlive, hoptions, hlane⟩ := stop_lane hstop
  obtain ⟨hb, htimely⟩ := hs live hlive (hoptions ▸ hunlimited)
  have hordered : ThreadOrdered stopped.1.events := fun n => by
    show (ofThread n stopped.1.events).Pairwise _
    rw [hlane]
    exact htimely.ordered n
  have hnested : ∀ n, openScopes? (stopped.1.events.filter (·.thread == n)) =
      some (recordedIds (p.openOf n)) := by
    intro n
    rw [← hb.lane n, ← hlane n]
    rfl
  have hstamped : ∀ e ∈ stopped.1.events, e.timestamp ∈ stamps := fun e he => by
    have hown : e ∈ ofThread e.thread stopped.1.events :=
      List.mem_filter.mpr ⟨he, beq_self_eq_true _⟩
    rw [hlane] at hown
    exact htimely.stamped _ e hown
  have hapart : ∀ b ∈ stopped.1.events, ∀ e ∈ stopped.1.events,
      e.timestamp - b.timestamp ≤ TickRate.maxTicks := fun b hb e he =>
    hclock.apart (hstamped b hb) (hstamped e he)
  exact Recording.anomalies_of_nested hordered hapart hnested p.length_recordedIds_openOf o

end Program

/-- The guards whose begin a past session recorded, and that were open when it
stopped. -/
def Program.openAtStop (names : List (Option String)) (commands : List Command) (i : Nat)
    (s : PastSession) : List HeldGuard :=
  (run names (commands.take s.stopped)).leftOpen i

/-- **Guards dropped innermost first always profile clean.** In every run in
which each thread drops its guards innermost first and the clock goes on,
every session without caps and without a rate limit profiles, strict or not,
without an unmatched or mismatched end or an invalid duration; and its
unmatched begins are the guards whose begin it recorded and that were open
when it stopped. -/
theorem last_first_profiles_clean (names : List (Option String)) (commands : List Command)
    (hdrops : ({ capture := .ofThreads names } : Program).dropsLastFirst commands = true)
    (hclock : ClockGoesOn (stampsOf commands)) (o : ProfileOptions) :
    ∀ i (s : PastSession), (Program.run names commands).past[i]? = some s →
      s.recording.options.isUnlimited = true → (s.recording.profile o).anomalies =
        { unmatchedBegin :=
            (Program.openAtStop names commands i s).countP (o.covers ·.thread) } := by
  induction commands using List.reverseRecOn with
  | nil => exact fun i s hs => absurd hs (by simp [Program.run])
  | append_singleton commands command ih =>
    rw [Program.dropsLastFirst_concat, Bool.and_eq_true] at hdrops
    rw [stampsOf_concat] at hclock
    have hbefore := (List.pairwise_append.mp hclock).1
    have hminuted := Program.minuted_run names commands
    have hsteady := Program.steady_run names commands hdrops.1 (hbefore.imp And.left)
    -- what was open when an earlier session stopped is not up to a later command
    have hpast : ∀ i (s : PastSession), (Program.run names commands).past[i]? = some s →
        s.recording.options.isUnlimited = true → (s.recording.profile o).anomalies =
          { unmatchedBegin := (Program.openAtStop names (commands ++ [command]) i s).countP
              (o.covers ·.thread) } := by
      intro i s hs
      have hstopped := (hminuted.past s (List.mem_of_getElem? hs)).1
      rw [Program.openAtStop, List.take_append_of_le_length (Nat.le_of_lt hstopped)]
      exact ih hdrops.1 hbefore i s hs
    rw [Program.run_append]
    have hstep := (Program.run names commands).step_spec command
    generalize (Program.run names commands).step command = p' at hstep ⊢
    cases hstep with
    | stop hstop =>
      intro i s hs hunlimited
      by_cases hi : i < (Program.run names commands).past.length
      · rw [List.getElem?_append_left hi] at hs
        exact hpast i s hs hunlimited
      · rw [List.getElem?_append_right (Nat.not_lt.mp hi), List.getElem?_singleton,
          Option.ite_none_right_eq_some, Option.some.injEq] at hs
        obtain ⟨hlast, rfl⟩ := hs
        obtain rfl : i = (Program.run names commands).past.length := by omega
        rw [Program.openAtStop, hminuted.place, List.take_left]
        exact Program.profile_of_stop hsteady hstop hbefore hunlimited o
    | serve _ _ => rw [Program.serve_past]; exact hpast
    | start _ => exact hpast
    | endThread _ => exact hpast
    | ignored _ => exact hpast

/-- Every second scope of a thread is recorded. One outlives its session with
another inside it, and is dropped in the next. -/
def Command.spanning : List Command :=
  let halved : Options := { sampleEvery := 2 }
  [.start halved 0, .call 0 (.openScope 7) ⟨1, 1⟩, .call 0 (.openScope 8) ⟨2, 2⟩,
    .call 0 (.closeScope 1) ⟨3, 3⟩, .call 0 (.openScope 7) ⟨4, 4⟩, .call 1 (.openScope 9) ⟨5, 5⟩,
    .stop 6, .start halved 7, .call 0 (.openScope 8) ⟨8, 8⟩, .call 0 (.closeScope 4) ⟨9, 9⟩,
    .call 0 (.closeScope 2) ⟨9, 9⟩, .call 0 (.closeScope 0) ⟨9, 9⟩, .stop 10]

/-- Three recorded begins are open when the first session stops, two of them on
one thread, and the second session hears of its own scope only. -/
theorem last_first_profiles_clean_spanning :
    ((Program.run [none, none] Command.spanning).past.map fun s =>
      (s.recording.profile { strict := true }).anomalies) =
        [{ unmatchedBegin := 3 }, { unmatchedBegin := 0 }] ∧
    ((Program.run [none, none] Command.spanning).past.map fun s =>
      (s.recording.profile { onlyThread := some 1 }).anomalies) =
        [{ unmatchedBegin := 2 }, { unmatchedBegin := 0 }] := by
  have hunlimited : ∀ s ∈ (Program.run [none, none] Command.spanning).past,
      s.recording.options.isUnlimited = true := by decide +kernel
  have hcounts : ∀ o : ProfileOptions, ((Program.run [none, none] Command.spanning).past.map
      fun s => (s.recording.profile o).anomalies) =
        (Program.run [none, none] Command.spanning).past.mapIdx fun i s =>
          { unmatchedBegin :=
              (Program.openAtStop [none, none] Command.spanning i s).countP
                (o.covers ·.thread) } := by
    intro o
    refine List.ext_getElem? fun i => ?_
    rw [List.getElem?_map, List.getElem?_mapIdx]
    cases hs : (Program.run [none, none] Command.spanning).past[i]? with
    | none => rfl
    | some s =>
      have hclean := last_first_profiles_clean [none, none] Command.spanning (by decide +kernel)
        (by decide +kernel) o i s hs (hunlimited s (List.mem_of_getElem? hs))
      exact congrArg some hclean
  exact ⟨(hcounts _).trans (by decide +kernel), (hcounts _).trans (by decide +kernel)⟩

end EventTrace
