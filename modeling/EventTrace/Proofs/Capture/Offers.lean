import EventTrace.Proofs.Capture.Lanes
/-!
# Capture — what an emission comes to without caps

In a session without caps an emission comes to what the tests of its thread
say: it goes to the end of its thread's lane, numbered by its place there, if
they let it pass, and is gone if they do not (`Unhindered.emit`). Which writer
the thread has, and whether it has one yet, makes no difference: a thread
without one meets the tests that the options ask for.
-/

namespace EventTrace

open Depot

/-- The event of an emission, as the one of a thread in some place. -/
def Emission.event (e : Emission) (thread stamp : Int) (place : Nat) : Event :=
  { id := e.id, thread, timestamp := stamp, kind := e.kind, flow := e.flow, value := e.value,
    sequence := place }

namespace Capture

variable {c c' : Capture} {t u : ThreadId} {live : LiveSession} {w v : WriterId} {n : Int}
  {E : List (CollectorId × Int)} {F : List CollectorId} {ended : List ThreadId}

/-- What a session holds of the thread of some number. -/
def lane (c : Capture) (live : LiveSession) (n : Int) : List Event :=
  c.depot.heldOf live.collector n

/-- The tests that the next event of a thread meets under some options. -/
def screenOf (c : Capture) (o : Options) (t : ThreadId) : Screen :=
  match (c.bound? t).bind c.depot.writer? with
  | some s => s.screen
  | none => Screen.ofOptions o

/-- What the tests of a thread say of an emission, with the tests after it. -/
def judge (c : Capture) (o : Options) (t : ThreadId) (e : Emission) (now : Reading) :
    Verdict × Screen :=
  (c.screenOf o t).screen e.id e.kind now.arrival

/-- Whether an emission is recorded. -/
def writes (c : Capture) (t : ThreadId) (e : Emission) (now : Reading) : Bool :=
  if !c.running || (c.slot t).lent then false
  else match c.bind t with
    | (none, _) => false
    | (some w, c) => (c.depot.write w e now).1

/-! ## Writers at work -/

/-- A writer of a session is attached and open, and its next event takes the
place after those its thread has in the session. -/
def AtWork (live : LiveSession) (c : Capture) (t : ThreadId) (w : WriterId) : Prop :=
  ∃ s, c.depot.writer? w = some s ∧ s.collector = some live.collector ∧
    s.thread = (c.slot t).number ∧ c.depot.isLinkClosed s.link = false ∧
    s.sequence = (c.lane live (c.slot t).number).length

/-- A session without caps that is open, with its writers at work. -/
structure Unhindered (live : LiveSession) (c : Capture) : Prop where
  uncapped : live.options.isUncapped = true
  closed : (c.depot.collector live.collector).closed = false
  options : (c.depot.collector live.collector).options = live.options
  working : ∀ t w, c.bound? t = some w → AtWork live c t w

/-- A writer stays at work while another one is at its own affairs. -/
theorem AtWork.solo (h : AtWork live c t v) (hsolo : Solo w c.depot c'.depot) (hv : v ≠ w)
    (hnumber : (c'.slot t).number = (c.slot t).number)
    (hlane : c'.lane live (c.slot t).number = c.lane live (c.slot t).number) :
    AtWork live c' t v := by
  obtain ⟨s, hw, hs, hthread, hlink, hsequence⟩ := h
  refine ⟨s, by rw [hsolo.others v hv, hw], hs, by rw [hthread, hnumber],
    hsolo.links s.link hlink, ?_⟩
  rw [hnumber, hlane, hsequence]

theorem screenOf_congr {o : Options} (hbound : c'.bound? t = c.bound? t)
    (hwriter : ∀ w, c.bound? t = some w → c'.depot.writer? w = c.depot.writer? w) :
    c'.screenOf o t = c.screenOf o t := by
  unfold screenOf
  rw [hbound]
  cases hw : c.bound? t with
  | none => rfl
  | some w => simp only [Option.bind_some, hwriter w hw]

/-- Nothing that the live session holds changed, nor the tests of a thread. -/
structure Undisturbed (live : LiveSession) (c c' : Capture) : Prop where
  unhindered : Unhindered live c'
  lane : ∀ n, c'.lane live n = c.lane live n
  screen : ∀ t, c'.screenOf live.options t = c.screenOf live.options t

namespace Unhindered

/-- Flow numbers are no one's work. -/
theorem renumber (ho : Unhindered live c) (flow : Int) :
    Unhindered live { c with lastFlow := flow } :=
  ⟨ho.uncapped, ho.closed, ho.options, ho.working⟩

/-- **A thread drops its writer**: no lane changes, and no other thread's
tests do. -/
theorem dropWriter (ho : Unhindered live c) (h : Laned E F ended c)
    (hlive : c.session = some live) (t : ThreadId) :
    Unhindered live (c.dropWriter t) ∧ (∀ n, (c.dropWriter t).lane live n = c.lane live n) ∧
      ∀ o u, (c.dropWriter t).screenOf o u =
        if u = t then Screen.ofOptions o else c.screenOf o u := by
  have houtline := SameOutline.dropWriter c t
  have hself : (c.dropWriter t).bound? t = none := by
    simp [bound?, slot_dropWriter]
  have hothers : ∀ u ≠ t, (c.dropWriter t).bound? u = c.bound? u := by
    intro u hu
    rw [bound?, slot_dropWriter, if_neg hu, houtline.version, ← bound?]
  cases hw : (c.slot t).writer with
  | none =>
    have hsame : c.dropWriter t = c := by simp [Capture.dropWriter, hw]
    refine ⟨hsame.symm ▸ ho, fun n => by rw [hsame], fun o u => ?_⟩
    split
    · next hu =>
      rw [hu, screenOf, hself]
      rfl
    · rw [hsame]
  | some w =>
    have hdepot : (c.dropWriter t).depot = c.depot.dropWriter w := by
      simp [Capture.dropWriter, hw]
    have hsolo : Solo w c.depot (c.dropWriter t).depot := hdepot ▸ .dropWriter c.depot w
    have hlane : ∀ n, (c.dropWriter t).lane live n = c.lane live n := by
      intro n
      have hmoves : Moves c.depot (c.dropWriter t).depot := hdepot ▸ moves_dropWriter c.depot w
      exact h.record.filed.heldOf_moves hmoves hsolo (h.live live hlive).2.2 n
    have hne : ∀ u v, u ≠ t → c.bound? u = some v → v ≠ w := by
      rintro u v hu hv rfl
      exact hu (h.writer_inj (bound?_eq_some.mp hv).2 hw)
    refine ⟨⟨ho.uncapped, (hsolo.closed _).trans ho.closed, (hsolo.options _).trans ho.options,
      ?_⟩, hlane, fun o u => ?_⟩
    · intro u v hv
      by_cases hu : u = t
      · rw [hu, hself] at hv
        exact absurd hv (by simp)
      · rw [hothers u hu] at hv
        exact (ho.working u v hv).solo hsolo (hne u v hu hv) (houtline.number u) (hlane _)
    · split
      · next hu =>
        rw [hu, screenOf, hself]
        rfl
      · next hu => exact screenOf_congr (hothers u hu) fun v hv => hsolo.others v (hne u v hu hv)

/-- **A thread gets its writer** and disturbs no one: it meets the tests it
would have met. -/
theorem newWriter (ho : Unhindered live c) (h : Laned E F ended c) (ht : t < c.slots.size)
    (hlive : c.session = some live) (hversion : (c.slot t).version ≠ c.version)
    (name : Option String) :
    Undisturbed live c { c.modifySlot t fun s =>
        { s with version := c.version, writer := some c.depot.writers.size } with
      depot := (c.depot.newWriter live.collector (c.slot t).number name).2 } := by
  generalize hc' : ({ c.modifySlot t fun s =>
        { s with version := c.version, writer := some c.depot.writers.size } with
      depot := (c.depot.newWriter live.collector (c.slot t).number name).2 } : Capture) = c'
  have houtline : SameOutline c c' := by
    rw [← hc']
    exact .modifySlot c t _ (fun _ => rfl) fun _ => rfl
  have hdepot : c'.depot = (c.depot.newWriter live.collector (c.slot t).number name).2 := by
    rw [← hc']
  have hslot : ∀ u, c'.slot u = if u = t then
      { c.slot t with version := c.version, writer := some c.depot.writers.size }
      else c.slot u := by
    intro u
    rw [← hc']
    show (c.modifySlot t _).slot u = _
    simp only [slot_modifySlot, ht, and_true]
  have hsolo : Solo c.depot.writers.size c.depot c'.depot :=
    hdepot ▸ solo_newWriter c.depot live.collector _ name
  obtain ⟨hwriter, hlink⟩ := writer?_newWriter c.depot live.collector (c.slot t).number name
  rw [← hdepot] at hwriter hlink
  have hlane : ∀ n, c'.lane live n = c.lane live n := by
    intro n
    obtain ⟨d₁, hagree, heq⟩ := newWriter_eq c.depot live.collector (c.slot t).number name
    have hcontents : c'.depot.contents live.collector = c.depot.contents live.collector := by
      rw [hdepot, heq]
      exact hagree.toAlike.contents _
    rw [lane, heldOf, hcontents, ← heldOf, ← lane]
  have hself : c'.bound? t = some c.depot.writers.size := by
    refine bound?_eq_some.mpr ?_
    rw [hslot, if_pos rfl, houtline.version]
    exact ⟨rfl, rfl⟩
  have hothers : ∀ u ≠ t, c'.bound? u = c.bound? u := by
    intro u hu
    unfold bound?
    rw [hslot, if_neg hu, houtline.version]
  have hnone : c.bound? t = none := if_neg hversion
  -- the writers there were are in the places before the new one
  have hne : ∀ u v, c.bound? u = some v → v ≠ c.depot.writers.size := by
    intro u v hv
    have hlt := (List.getElem?_eq_some_iff.mp (h.bound live u v hlive hv)).1
    rw [h.record.length] at hlt
    exact Nat.ne_of_lt hlt
  refine ⟨⟨ho.uncapped, (hsolo.closed _).trans ho.closed, (hsolo.options _).trans ho.options,
    ?_⟩, hlane, ?_⟩
  · intro u v hv
    by_cases hu : u = t
    · subst hu
      rw [hself, Option.some.injEq] at hv
      subst hv
      have hempty := h.record.heldOf_eq_nil (h.live live hlive).2.2
        (h.not_enrolled ht hlive hversion)
      refine ⟨_, hwriter, rfl, (houtline.number u).symm, hlink, ?_⟩
      rw [houtline.number, hlane, lane, hempty]
      rfl
    · rw [hothers u hu] at hv
      exact (ho.working u v hv).solo hsolo (hne u v hv) (houtline.number u) (hlane _)
  · intro u
    by_cases hu : u = t
    · subst hu
      rw [screenOf, screenOf, hself, hnone, Option.bind_some, hwriter, ho.options]
      rfl
    · exact screenOf_congr (hothers u hu) fun v hv => hsolo.others v (hne u v hv)

/-- Binding a thread disturbs no one. -/
theorem bind (ho : Unhindered live c) (h : Laned E F ended c) (ht : t < c.slots.size)
    (hended : t ∉ ended) (hlive : c.session = some live) : Undisturbed live c (c.bind t).2 := by
  rcases h.bind_cases ht hended hlive with ⟨w, hw, hbind⟩ | ⟨hversion, hbind⟩
  · rw [hbind]
    exact ⟨ho, fun _ => rfl, fun _ => rfl⟩
  · have houtline := SameOutline.dropWriter c t
    have hdropped := h.dropWriter (fun _ => id) (.inr hversion)
    have hversion₁ := outdated_dropWriter hversion
    have ht₁ : t < (c.dropWriter t).slots.size := by rwa [houtline.size]
    obtain ⟨ho₁, hlane, hscreen⟩ := ho.dropWriter h hlive t
    have hmade := ho₁.newWriter hdropped ht₁ (houtline.session.trans hlive) hversion₁
      (c.slot t).name
    rw [houtline.version] at hmade
    rw [hbind]
    refine ⟨hmade.unhindered, fun n => (hmade.lane n).trans (hlane n), fun u => ?_⟩
    rw [hmade.screen, hscreen]
    -- without a writer of the current version the thread met those tests before
    split
    · next hu =>
      rw [hu, screenOf, bound?, if_neg hversion]
      rfl
    · rfl

end Unhindered

/-! ## Emissions -/

/-- What an emission came to: the tests of its thread are as they are after
it, and its thread's lane has its event at the end if they let it pass. -/
structure Offered (live : LiveSession) (t : ThreadId) (e : Emission) (now : Reading)
    (c c' : Capture) : Prop where
  unhindered : Unhindered live c'
  lane : ∀ n, c'.lane live n = c.lane live n ++
    if (c.judge live.options t e now).1 = .passed ∧ n = (c.slot t).number
    then [e.event n now.stamp (c.lane live n).length] else []
  screen : ∀ u < c.slots.size, c'.screenOf live.options u =
    if u = t then (c.judge live.options t e now).2 else c.screenOf live.options u
  writes : c.writes t e now = ((c.judge live.options t e now).1 == .passed)

/-- **A write of a thread's own writer** comes to what the tests of the thread
say. -/
theorem Unhindered.write (ho : Unhindered live c) (h : Laned E F ended c)
    (ht : t < c.slots.size) (hlive : c.session = some live) (hw : c.bound? t = some w)
    (e : Emission) (now : Reading) :
    let c' : Capture := { c with depot := (c.depot.write w e now).2 }
    Unhindered live c' ∧
      (∀ n, c'.lane live n = c.lane live n ++
        if (c.judge live.options t e now).1 = .passed ∧ n = (c.slot t).number
        then [e.event n now.stamp (c.lane live n).length] else []) ∧
      (∀ u, c'.screenOf live.options u =
        if u = t then (c.judge live.options t e now).2 else c.screenOf live.options u) ∧
      (c.depot.write w e now).1 = ((c.judge live.options t e now).1 == .passed) := by
  intro c'
  obtain ⟨s, hs, hk, hthread, hlink, hsequence⟩ := ho.working t w hw
  have hroom : (c.depot.collector live.collector).options.isUncapped = true := by
    rw [ho.options]
    exact ho.uncapped
  have hroomy := h.record.filed.posted.owned.write_uncapped hs hk hlink ho.closed hroom e now
  obtain ⟨-, hheld⟩ := h.record.filed.heldOf_write h.record.nodup hs hk hroomy
  -- the writer's tests are those of its thread
  have hjudge : s.screen.screen e.id e.kind now.arrival = c.judge live.options t e now := by
    simp only [judge, screenOf, hw, Option.bind_some, hs]
  have hpassed : (c.depot.write w e now).1 = ((c.judge live.options t e now).1 == .passed) := by
    rw [hroomy.passed, hjudge]
  have hsolo : Solo w c.depot c'.depot := hroomy.solo
  obtain ⟨chunk, hs'⟩ := hroomy.writer
  rw [hpassed, hjudge] at hs'
  have hlane : ∀ n, c'.lane live n = c.lane live n ++
      if (c.judge live.options t e now).1 = .passed ∧ n = (c.slot t).number
      then [e.event n now.stamp (c.lane live n).length] else [] := by
    intro n
    have hn := hheld live.collector (h.live live hlive).2.2 n
    simp only [hpassed, beq_iff_eq, hthread, true_and] at hn
    refine hn.trans (congrArg (c.lane live n ++ ·) ?_)
    split
    · next hboth => rw [Writer.stamped, Emission.event, hthread, hsequence, hboth.2]
    · rfl
  have hne : ∀ u v, u ≠ t → c.bound? u = some v → v ≠ w := by
    rintro u v hu hv rfl
    exact hu (h.writer_inj (bound?_eq_some.mp hv).2 (bound?_eq_some.mp hw).2)
  refine ⟨⟨ho.uncapped, (hsolo.closed _).trans ho.closed, (hsolo.options _).trans ho.options, ?_⟩,
    hlane, ?_, hpassed⟩
  · intro u v hv
    by_cases hu : u = t
    · -- its own writer is one place further if the event is held
      subst hu
      obtain rfl : w = v := Option.some.inj (hw.symm.trans hv)
      refine ⟨_, hs', hk, hthread, hsolo.links _ hlink, ?_⟩
      show s.sequence + (if _ then 1 else 0) = ((c'.lane live (c.slot u).number).length : Int)
      rw [hlane, hsequence]
      by_cases hpass : (c.judge live.options u e now).1 = .passed
      · simp [hpass]
      · simp [hpass]
    · have hunmoved : c'.lane live (c.slot u).number = c.lane live (c.slot u).number := by
        rw [hlane, if_neg, List.append_nil]
        rintro ⟨-, hsame⟩
        exact hu (h.number_inj (lt_size_of_writer (bound?_eq_some.mp hv).2) ht hsame)
      exact (ho.working u v hv).solo hsolo (hne u v hu hv) rfl hunmoved
  · intro u
    by_cases hu : u = t
    · have hbound : c'.bound? t = some w := hw
      rw [hu, if_pos rfl, screenOf, hbound, Option.bind_some, hs']
    · rw [if_neg hu]
      exact screenOf_congr rfl fun v hv => hsolo.others v (hne u v hu hv)

/-- **In a session without caps an emission comes to what the tests of its
thread say.** -/
theorem Unhindered.emit (ho : Unhindered live c) (h : Laned E F ended c)
    (ht : t < c.slots.size) (hended : t ∉ ended) (hlive : c.session = some live) (e : Emission)
    (now : Reading) : Offered live t e now c (c.emit t e now) := by
  have hrunning := h.isRunning hlive
  have houtline := SameOutline.bind c t
  have hundisturbed := ho.bind h ht hended hlive
  obtain ⟨w, c₁, E', hbind, hw, h₁⟩ := h.bind ht hended hlive
  rw [hbind] at houtline hundisturbed
  dsimp only at houtline hundisturbed
  obtain ⟨ho₁, hlane, hscreen⟩ := hundisturbed
  have hemit : c.emit t e now = { c₁ with depot := (c₁.depot.write w e now).2 } := by
    simp [Capture.emit, hrunning, h.lent t, hbind]
  have hwrites : c.writes t e now = (c₁.depot.write w e now).1 := by
    simp [Capture.writes, hrunning, h.lent t, hbind]
  -- binding the thread changed nothing that its writer's write is up to
  have hjudge : c₁.judge live.options t e now = c.judge live.options t e now := by
    rw [judge, judge, hscreen]
  obtain ⟨hwritten, hlane', hscreen', hpassed⟩ :=
    ho₁.write h₁ (houtline.size ▸ ht) (houtline.session.trans hlive) hw e now
  rw [hemit]
  refine ⟨hwritten, fun n => ?_, fun u _ => ?_, ?_⟩
  · rw [hlane', hjudge, hlane, houtline.number]
  · rw [hscreen', hjudge, hscreen]
  · rw [hwrites, hpassed, hjudge]

/-! ## Starts and stops -/

/-- **A session starts with empty lanes**, and its threads meet the tests that
its options ask for. -/
theorem Laned.opened (h : Laned E F ended c) {o : Options} {now : Int}
    (hstart : c.start o now = .ok c') :
    ∃ live, c'.session = some live ∧ live.options = o ∧ c'.version = c.version + 1 ∧
      (∀ n, c'.lane live n = []) ∧ (∀ t, c'.screenOf o t = Screen.ofOptions o) ∧
      (o.isUncapped = true → Unhindered live c') := by
  have hbound : ∀ t, c'.bound? t = none := fun t => if_neg (h.version_start hstart t)
  obtain ⟨-, -, d, live, -, hlive, hagree, heq⟩ := start_eq_ok hstart
  have hcollector : live.collector = d.collectors.size := by rw [hlive]
  have hoptions : live.options = o := by rw [hlive]
  refine ⟨live, by rw [heq], hoptions, by rw [heq], ?_, ?_, ?_⟩
  · intro n
    have hcontents : c'.depot.contents live.collector = [] := by
      rw [hagree.toAlike.contents, contents_newCollector, contents, hcollector,
        collector_of_ge (Nat.le_refl _)]
      rfl
    rw [lane, heldOf, hcontents]
    rfl
  · intro t
    rw [screenOf, hbound]
    rfl
  · intro huncapped
    refine ⟨hoptions ▸ huncapped, ?_, ?_, fun t w hw => ?_⟩
    · rw [hagree.closed, hcollector, collector_newCollector]
    · rw [hagree.options, hcollector, collector_newCollector, hoptions]
    · rw [hbound] at hw
      exact absurd hw (by simp)

/-- **A stop hands over the lanes** of its session, with its options. -/
theorem stop_lane {now : Int} {stopped : Recording × Capture}
    (hstop : c.stop now = .ok stopped) :
    ∃ live, c.session = some live ∧ stopped.1.options = live.options ∧
      ∀ n, ofThread n stopped.1.events = c.lane live n := by
  obtain ⟨live, hlive, hoptions, -⟩ := stopped_eq hstop
  obtain ⟨live', d, hlive', rfl, hchunks, -, -⟩ := stop_eq_ok hstop
  obtain rfl : live = live' := Option.some.inj (hlive.symm.trans hlive')
  refine ⟨live, hlive, hoptions, fun n => ?_⟩
  have hclosed := agree_closeWriters (c.depot.close live.collector) live.collector
  have hsame := (same_close c.depot live.collector live.collector).trans
    (hclosed.same live.collector)
  rw [Recording.events, hchunks, flatten_freeze, hsame.contents]
  rfl

end Capture

end EventTrace
