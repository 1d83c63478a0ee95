import EventTrace.Proofs.Capture.Minutes
/-!
# Capture — every event has its call

Under options that leave nothing out a session has what its minutes have.
Under any options it has a part of that: an emission is recorded or not
(`Program.wasRecorded`), and of what was recorded of a thread, numbered from
zero, the session holds all but the first events, those that went with the
chunks it gave up (`Capture.Traces`). So the number of an event tells the call
it comes from, and a recording has the events of a thread in the order of
their calls (`Program.traced_run`).
-/

namespace EventTrace

open Depot

namespace Depot

variable {d d' : Depot} {k : CollectorId} {w : WriterId} {t : Int}
  {E : List (CollectorId × Int)} {F : List CollectorId}

/-! ## What is given up is the oldest -/

/-- What was given up was given up for good. -/
theorem Filed.evictions_moves (h : Filed E F d) (hm : Moves d d') (k : CollectorId) :
    d.evictions k <+: d'.evictions k := by
  induction hm with
  | refl => exact List.prefix_rfl
  | tail hmoves hm ih =>
    refine ih.trans ?_
    cases (h.moves hmoves).posted.owned.change hm k with
    | same hsame => exact hsame.evictions ▸ List.prefix_rfl
    | gaveUp _ _ _ _ _ _ _ _ hevictions => exact hevictions ▸ List.prefix_append _ _
    | entered _ hevictions => exact hevictions ▸ List.prefix_rfl

theorem Filed.evictions_writeEnds {e : Emission} {now : Reading} {r : Bool × Depot}
    (h : Filed E F d) (hends : WriteEnds d w e now r) (k : CollectorId) :
    d.evictions k <+: r.2.evictions k := by
  cases hends with
  | closed _ hmoves => exact h.evictions_moves hmoves k
  | @filtered _ _ screen => exact (alike_rescreen d w screen).evictions k ▸ List.prefix_rfl
  | refused _ hw _ _ hscreen hbefore hrefuses hafter =>
    subst hscreen
    have hscreened := h.rescreen hw e now.arrival
    have h₁ := hscreened.moves hbefore
    have h₂ := h₁.alike (h₁.posted.alike_of_writers hrefuses.toAlike hrefuses.sameWriters)
      hrefuses.toAlike
    have hlast := h₂.evictions_moves hafter k
    rw [hrefuses.toAlike.evictions] at hlast
    exact (hscreened.evictions_moves hbefore k).trans hlast
  | @written _ s _ c _ _ _ hw _ _ hscreen hbefore _ _ _ hagree =>
    subst hscreen
    have hlast := (h.rescreen hw e now.arrival).evictions_moves hbefore k
    rw [hagree.evictions]
    exact hlast

/-- What is held of a thread is the end of what was kept of it. -/
theorem heldOf_suffix {l : List Event} (hevictions : d.evictions k <+: d'.evictions k)
    (hkept : ofThread t (d'.kept k) = ofThread t (d.kept k) ++ l) :
    d'.heldOf k t <:+ d.heldOf k t ++ l := by
  obtain ⟨lost, hlost⟩ := hevictions
  rw [kept, kept, ← hlost, List.flatten_append, ofThread_append, ofThread_append,
    ofThread_append, List.append_assoc, List.append_assoc] at hkept
  exact ⟨_, List.append_cancel_left hkept⟩

/-- Moves take nothing but the oldest of a thread. -/
theorem Filed.heldOf_suffix_moves (h : Filed E F d) (hm : Moves d d') (hk : k ∉ F) (t : Int) :
    d'.heldOf k t <:+ d.heldOf k t := by
  have hkept := (h.intact_moves hm).kept k hk t
  rw [← List.append_nil (ofThread t (d.kept k))] at hkept
  have hsuffix := heldOf_suffix (h.evictions_moves hm k) hkept
  rwa [List.append_nil] at hsuffix

end Depot

namespace Capture

variable {c c' : Capture} {t : ThreadId} {live : LiveSession} {w : WriterId} {n : Int}
  {trace : Int → List Event} {E : List (CollectorId × Int)} {F : List CollectorId}
  {ended : List ThreadId}

/-! ## Traces of a session -/

/-- What a session has recorded of each thread by its number, of which it may
have given up the first. -/
structure Traces (live : LiveSession) (trace : Int → List Event) (c : Capture) : Prop where
  held : ∀ n, c.lane live n <:+ trace n
  /-- The next event of a thread is numbered by its place. -/
  numbered : ∀ t w s, c.bound? t = some w → c.depot.writer? w = some s →
    s.sequence = (trace (c.slot t).number).length
  /-- Who has left a trace has a slot of the version. -/
  enrolled : ∀ n, trace n ≠ [] →
    ∃ t < c.slots.size, n = (c.slot t).number ∧ (c.slot t).version = c.version

namespace Traces

/-- Flow numbers leave no trace. -/
theorem renumber (h : Traces live trace c) (flow : Int) :
    Traces live trace { c with lastFlow := flow } := ⟨h.held, h.numbered, h.enrolled⟩

/-- A thread that drops its writer leaves its trace. -/
theorem dropWriter (hT : Traces live trace c) (h : Laned E F ended c)
    (hlive : c.session = some live) (t : ThreadId) : Traces live trace (c.dropWriter t) := by
  have houtline := SameOutline.dropWriter c t
  have hmoves : Moves c.depot (c.dropWriter t).depot := by
    unfold Capture.dropWriter
    split
    · exact .refl
    · exact moves_dropWriter _ _
  have hintact := h.record.filed.intact_moves hmoves
  refine ⟨fun n => ?_, fun u v s hv hs => ?_, fun n hn => ?_⟩
  · exact (h.record.filed.heldOf_suffix_moves hmoves (h.live live hlive).2.2 n).trans (hT.held n)
  · -- the thread itself has no writer now, and the others are where they were
    obtain ⟨hversion, hwriter⟩ := bound?_eq_some.mp hv
    rw [slot_dropWriter] at hversion hwriter
    rw [houtline.version] at hversion
    by_cases hu : u = t
    · rw [if_pos hu] at hwriter
      exact absurd hwriter (by simp)
    · rw [if_neg hu] at hversion hwriter
      obtain ⟨s₀, hs₀, hsequence⟩ := hintact.sequence v s hs
      rw [hsequence, houtline.number]
      exact hT.numbered u v s₀ (bound?_eq_some.mpr ⟨hversion, hwriter⟩) hs₀
  · obtain ⟨u, hu, hnumber, hversion⟩ := hT.enrolled n hn
    refine ⟨u, houtline.size.symm ▸ hu, (houtline.number u).symm ▸ hnumber, ?_⟩
    rw [slot_dropWriter, houtline.version]
    split
    · next htu => exact htu ▸ hversion
    · exact hversion

/-- A writer that is new to the session begins its trace. -/
theorem newWriter (hT : Traces live trace c) (h : Laned E F ended c) (ht : t < c.slots.size)
    (hlive : c.session = some live) (hversion : (c.slot t).version ≠ c.version)
    (name : Option String) :
    Traces live trace { c.modifySlot t fun s =>
        { s with version := c.version, writer := some c.depot.writers.size } with
      depot := (c.depot.newWriter live.collector (c.slot t).number name).2 } := by
  generalize hc' : ({ c.modifySlot t fun s =>
        { s with version := c.version, writer := some c.depot.writers.size } with
      depot := (c.depot.newWriter live.collector (c.slot t).number name).2 } : Capture) = c'
  have houtline : SameOutline c c' := by
    rw [← hc']
    exact .modifySlot c t _ (fun _ => rfl) fun _ => rfl
  have hdepot : c'.depot = (c.depot.newWriter live.collector (c.slot t).number name).2 := by
    rw [← hc']
  have hslot : ∀ u, c'.slot u = if u = t then
      { c.slot t with version := c.version, writer := some c.depot.writers.size }
      else c.slot u := by
    intro u
    rw [← hc']
    show (c.modifySlot t _).slot u = _
    simp only [slot_modifySlot, ht, and_true]
  have hsolo : Solo c.depot.writers.size c.depot c'.depot :=
    hdepot ▸ solo_newWriter c.depot live.collector _ name
  have hcontents : c'.depot.contents live.collector = c.depot.contents live.collector := by
    obtain ⟨d₁, hagree, heq⟩ := newWriter_eq c.depot live.collector (c.slot t).number name
    rw [hdepot, heq]
    exact hagree.toAlike.contents _
  refine ⟨fun n => ?_, fun u v s hv hs => ?_, fun n hn => ?_⟩
  · rw [lane, heldOf, hcontents]
    exact hT.held n
  · rw [houtline.number]
    obtain ⟨huversion, huwriter⟩ := bound?_eq_some.mp hv
    rw [hslot] at huversion huwriter
    by_cases hu : u = t
    · -- a thread with a trace had a slot of the version before
      subst hu
      rw [if_pos rfl, Option.some.injEq] at huwriter
      subst huwriter
      have hnone : trace (c.slot u).number = [] := by
        by_contra hsome
        obtain ⟨u', hu', hnumber, hcurrent⟩ := hT.enrolled _ hsome
        obtain rfl := h.number_inj ht hu' hnumber
        exact hversion hcurrent
      rw [hdepot, (writer?_newWriter c.depot live.collector _ name).1, Option.some.injEq] at hs
      rw [hnone, ← hs]
      rfl
    · rw [if_neg hu] at huversion huwriter
      have hbound : c.bound? u = some v :=
        bound?_eq_some.mpr ⟨huversion.trans houtline.version, huwriter⟩
      have hlt := (List.getElem?_eq_some_iff.mp (h.bound live u v hlive hbound)).1
      rw [h.record.length] at hlt
      rw [hsolo.others v (Nat.ne_of_lt hlt)] at hs
      exact hT.numbered u v s hbound hs
  · obtain ⟨u, hu, hnumber, hcurrent⟩ := hT.enrolled n hn
    refine ⟨u, houtline.size.symm ▸ hu, (houtline.number u).symm ▸ hnumber, ?_⟩
    rw [hslot, houtline.version]
    split
    · rfl
    · exact hcurrent

/-- Binding a thread leaves the traces. -/
theorem bind (hT : Traces live trace c) (h : Laned E F ended c) (ht : t < c.slots.size)
    (hended : t ∉ ended) (hlive : c.session = some live) :
    Traces live trace (c.bind t).2 := by
  rcases h.bind_cases ht hended hlive with ⟨w, hw, hbind⟩ | ⟨hversion, hbind⟩
  · rw [hbind]
    exact hT
  · have houtline := SameOutline.dropWriter c t
    have hdropped := h.dropWriter (fun _ => id) (.inr hversion)
    have ht₁ : t < (c.dropWriter t).slots.size := by rwa [houtline.size]
    have hmade := (hT.dropWriter h hlive t).newWriter hdropped ht₁ (houtline.session.trans hlive)
      (outdated_dropWriter hversion) (c.slot t).name
    rw [houtline.version] at hmade
    rw [hbind]
    exact hmade

/-- **A write that is done goes to the end of its thread's trace.** -/
theorem write (hT : Traces live trace c) (h : Laned E F ended c) (ht : t < c.slots.size)
    (hlive : c.session = some live) (hw : c.bound? t = some w) (e : Emission) (now : Reading) :
    Traces live
      (fun n => trace n ++
        if (c.depot.write w e now).1 = true ∧ n = (c.slot t).number
        then [e.event n now.stamp (trace n).length] else [])
      { c with depot := (c.depot.write w e now).2 } := by
  have hends := h.record.filed.posted.owned.writeEnds w e now
  have hgrown := h.record.filed.evictions_writeEnds hends live.collector
  have hopen := (h.live live hlive).2.2
  cases hdone : (c.depot.write w e now).1 with
  | false =>
    obtain ⟨-, hintact⟩ := h.record.filed.writeEnds_false hends hdone
    simp only [Bool.false_eq_true, false_and, if_false, List.append_nil]
    refine ⟨fun n => ?_, fun u v s hv hs => ?_, hT.enrolled⟩
    · have hkept := hintact.kept live.collector hopen n
      rw [← List.append_nil (ofThread n (c.depot.kept live.collector))] at hkept
      have hheld := heldOf_suffix hgrown hkept
      rw [List.append_nil] at hheld
      exact hheld.trans (hT.held n)
    · obtain ⟨s₀, hs₀, hsequence⟩ := hintact.sequence v s hs
      rw [hsequence]
      exact hT.numbered u v s₀ hv hs₀
  | true =>
    obtain ⟨k, s, hs, hk, -, hgained⟩ :=
      h.record.filed.writeEnds_true h.record.nodup hends hdone
    -- the writer is on record as the thread's in this session
    have hhome := (h.record.filed.home w s k hs hk).symm.trans (h.bound live t w hlive hw)
    rw [Option.some.injEq, Prod.mk.injEq] at hhome
    obtain ⟨rfl, hthread⟩ := hhome
    simp only [true_and]
    refine ⟨fun n => ?_, fun u v s' hv hs' => ?_, fun n hn => ?_⟩
    · refine (heldOf_suffix hgrown (hgained.kept live.collector hopen n)).trans ?_
      obtain ⟨lost, hlost⟩ := hT.held n
      refine ⟨lost, ?_⟩
      rw [← List.append_assoc]
      refine congrArg₂ (· ++ ·) hlost ?_
      simp only [hthread, true_and]
      split
      · next hn =>
        subst hn
        rw [Writer.stamped, Emission.event, hthread, hT.numbered t w s hw hs]
      · rfl
    · obtain ⟨s₀, hs₀, hsequence⟩ := hgained.sequence v s' hs'
      have hnumbered := hT.numbered u v s₀ hv hs₀
      show s'.sequence = ((trace (c.slot u).number ++ if (c.slot u).number = (c.slot t).number
        then [e.event (c.slot u).number now.stamp (trace (c.slot u).number).length]
        else []).length : Int)
      rw [hsequence, hnumbered]
      by_cases hu : u = t
      · subst hu
        obtain rfl : w = v := Option.some.inj (hw.symm.trans hv)
        simp
      · have hne : v ≠ w := by
          rintro rfl
          exact hu (h.writer_inj (bound?_eq_some.mp hv).2 (bound?_eq_some.mp hw).2)
        have hother : (c.slot u).number ≠ (c.slot t).number := fun hsame =>
          hu (h.number_inj (lt_size_of_writer (bound?_eq_some.mp hv).2) ht hsame)
        simp [hne, hother]
    · by_cases hself : n = (c.slot t).number
      · exact ⟨t, ht, hself, (bound?_eq_some.mp hw).1⟩
      · refine hT.enrolled n ?_
        simpa [hself] using hn

/-- **What an emission leaves behind**: its event at the end of its thread's
trace, if it is recorded. -/
theorem emit (hT : Traces live trace c) (h : Laned E F ended c) (ht : t < c.slots.size)
    (hended : t ∉ ended) (hlive : c.session = some live) (e : Emission) (now : Reading) :
    Traces live
      (fun n => trace n ++
        if c.writes t e now = true ∧ n = (t : Int) + 1
        then [e.event n now.stamp (trace n).length] else [])
      (c.emit t e now) := by
  have hrunning := h.isRunning hlive
  have houtline := SameOutline.bind c t
  have hbound := hT.bind h ht hended hlive
  obtain ⟨w, c₁, E', hbind, hw, h₁⟩ := h.bind ht hended hlive
  rw [hbind] at houtline hbound
  dsimp only at houtline hbound
  have hemit : c.emit t e now = { c₁ with depot := (c₁.depot.write w e now).2 } := by
    simp [Capture.emit, hrunning, h.lent t, hbind]
  have hwrites : c.writes t e now = (c₁.depot.write w e now).1 := by
    simp [Capture.writes, hrunning, h.lent t, hbind]
  have hwritten := hbound.write h₁ (houtline.size ▸ ht) (houtline.session.trans hlive) hw e now
  rw [houtline.number, h.number t ht] at hwritten
  rw [hemit, hwrites]
  exact hwritten

/-- A session starts without a trace. -/
theorem start (h : Laned E F ended c) {o : Options} {now : Int}
    (hstart : c.start o now = .ok c') (hlive : c'.session = some live) :
    Traces live (fun _ => []) c' := by
  obtain ⟨live', hlive', -, -, hlane, -, -⟩ := h.opened hstart
  obtain rfl : live' = live := Option.some.inj (hlive'.symm.trans hlive)
  refine ⟨fun n => hlane n ▸ List.suffix_rfl, fun u v s hv _ => ?_, fun _ hn => absurd rfl hn⟩
  exact absurd (bound?_eq_some.mp hv).1 (h.version_start hstart u)

end Traces

/-! ## Flow numbers are left out of it -/

theorem dropWriter_renumber (c : Capture) (flow : Int) (t : ThreadId) :
    ({ c with lastFlow := flow } : Capture).dropWriter t =
      { c.dropWriter t with lastFlow := flow } := by
  have hslot : ({ c with lastFlow := flow } : Capture).slot t = c.slot t := rfl
  simp only [dropWriter, hslot]
  cases (c.slot t).writer <;> rfl

theorem bind_renumber (c : Capture) (flow : Int) (t : ThreadId) :
    ({ c with lastFlow := flow } : Capture).bind t =
      ((c.bind t).1, { (c.bind t).2 with lastFlow := flow }) := by
  have hslot : ({ c with lastFlow := flow } : Capture).slot t = c.slot t := rfl
  by_cases hbound : (c.slot t).version = c.version ∧ (c.slot t).writer.isSome = true
  · simp only [bind, hslot, if_pos hbound]
  · simp only [bind, dropWriter_renumber, hslot, if_neg hbound]
    obtain ⟨running, version, lastFlow, session, depot, slots⟩ := c.dropWriter t
    cases session with
    | none => rfl
    | some live =>
      dsimp only
      split <;> rfl

/-- What is recorded has nothing to do with flow numbers. -/
theorem writes_renumber (c : Capture) (flow : Int) (t : ThreadId) (e : Emission)
    (now : Reading) :
    ({ c with lastFlow := flow } : Capture).writes t e now = c.writes t e now := by
  have hslot : ({ c with lastFlow := flow } : Capture).slot t = c.slot t := rfl
  simp only [writes, bind_renumber, hslot]
  cases hbind : c.bind t with
  | mk w c₁ => cases w <;> rfl

end Capture

namespace Program

open Capture

variable {p : Program} {names : List (Option String)} {commands : List Command}
  {command : Command} {place first last : Nat} {r : Remark} {m : Minutes}

/-! ## What was recorded -/

/-- Whether what a call asked for was recorded when it was made. -/
def wasRecorded (names : List (Option String)) (commands : List Command) (r : Remark) : Bool :=
  match commands[r.place]? with
  | some (.call t _ now) => (run names (commands.take r.place)).capture.writes t r.emission now
  | _ => false

/-- What was recorded of the thread of some number while minutes were kept. -/
def recordsOf (names : List (Option String)) (commands : List Command) (m : Minutes) (n : Int) :
    List Remark :=
  (m.remarksOf n).filter (wasRecorded names commands)

/-- The events of that, numbered from zero. -/
def tracesOf (names : List (Option String)) (commands : List Command) (m : Minutes) (n : Int) :
    List Event :=
  (recordsOf names commands m n).mapIdx fun place r => r.emission.event n r.stamp place

/-- A remark is what the call in its place asked for. -/
theorem of_remarkAt? (h : remarkAt? names commands place = some r) :
    r.place = place ∧ ∃ p t request, remark? p t request = some r.emission := by
  unfold remarkAt? at h
  split at h
  · dsimp only at h
    split at h
    · obtain ⟨e, he, rfl⟩ := Option.map_eq_some_iff.mp h
      exact ⟨rfl, _, _, _, he⟩
    · exact absurd h (by simp)
  · exact absurd h (by simp)

/-- A remark is in the minutes in the place of its call. -/
theorem mem_remarksIn (h : r ∈ remarksIn names commands first last) :
    first < r.place ∧ r.place < last ∧ remarkAt? names commands r.place = some r := by
  obtain ⟨place, hplace, hr⟩ := List.mem_filterMap.mp h
  rw [Option.ite_none_right_eq_some] at hr
  obtain ⟨hfirst, hr⟩ := hr
  have hsame := (of_remarkAt? hr).1
  rw [hsame]
  exact ⟨hfirst, List.mem_range.mp hplace, hr⟩

/-- Later commands do not change what was recorded. -/
theorem wasRecorded_append (h : r.place < commands.length) :
    wasRecorded names (commands ++ [command]) r = wasRecorded names commands r := by
  rw [wasRecorded, wasRecorded, List.getElem?_append_left h,
    List.take_append_of_le_length (Nat.le_of_lt h)]

theorem tracesOf_append (h : ∀ r ∈ m.remarks, r.place < commands.length) (n : Int) :
    tracesOf names (commands ++ [command]) m n = tracesOf names commands m n := by
  have hsame : recordsOf names (commands ++ [command]) m n = recordsOf names commands m n := by
    refine List.filter_congr fun r hr => wasRecorded_append (h r ?_)
    exact (List.mem_filter.mp hr).1
  rw [tracesOf, tracesOf, hsame]

/-- What one remark more adds to the traces. -/
theorem tracesOf_concat (names : List (Option String)) (commands : List Command) (m : Minutes)
    (r : Remark) (n : Int) :
    tracesOf names commands { m with remarks := m.remarks ++ [r] } n =
      tracesOf names commands m n ++
        if wasRecorded names commands r = true ∧ n = (r.thread : Int) + 1
        then [r.emission.event n r.stamp (tracesOf names commands m n).length] else [] := by
  unfold tracesOf recordsOf Minutes.remarksOf
  rw [List.filter_append, List.filter_append, List.length_mapIdx, List.filter_singleton]
  by_cases hn : n = (r.thread : Int) + 1
  · cases hr : wasRecorded names commands r <;> simp [hn, hr, List.mapIdx_append]
  · have hother : ((r.thread : Int) + 1 == n) = false := beq_eq_false_iff_ne.mpr (Ne.symm hn)
    simp [hn, hother]

/-- The session that runs has left the traces of what was recorded, and so has
every past one. -/
structure Traced (names : List (Option String)) (commands : List Command) (p : Program) :
    Prop where
  present : ∀ live m, p.capture.session = some live → p.minutes = some m →
    Traces live (tracesOf names commands m) p.capture
  past : ∀ s ∈ p.past, ∀ n,
    ofThread n s.recording.events <:+ tracesOf names commands s.minutes n

namespace Traced

/-- Later commands do not change what past sessions recorded. -/
theorem past_concat (hT : Traced names commands p) (hm : Minuted names commands p)
    (command : Command) : ∀ s ∈ p.past, ∀ n,
      ofThread n s.recording.events <:+ tracesOf names (commands ++ [command]) s.minutes n := by
  intro s hs n
  obtain ⟨hstopped, -, hremarks⟩ := hm.past s hs
  rw [tracesOf_append fun r hr => ?_]
  · exact hT.past s hs n
  · rw [hremarks] at hr
    exact (mem_remarksIn hr).2.1.trans hstopped

/-- Nor what the session that runs has recorded so far. -/
theorem present_concat (hT : Traced names commands p) (hm : Minuted names commands p)
    (command : Command) {live : LiveSession} (hlive : p.capture.session = some live)
    (hminutes : p.minutes = some m) :
    Traces live (tracesOf names (commands ++ [command]) m) p.capture := by
  have hsame : tracesOf names (commands ++ [command]) m = tracesOf names commands m := by
    refine funext fun n => tracesOf_append (fun r hr => ?_) n
    rw [(hm.present m hminutes).2] at hr
    exact (mem_remarksIn hr).2.1
  exact hsame ▸ hT.present live m hlive hminutes

end Traced

/-- Whether a remark was recorded is told by the process before its call. -/
theorem wasRecorded_length (names : List (Option String)) (commands : List Command)
    {t : ThreadId} (request : Request) (now : Reading) (e : Emission) :
    wasRecorded names (commands ++ [.call t request now]) ⟨commands.length, t, e, now.stamp⟩ =
      (run names commands).capture.writes t e now := by
  rw [wasRecorded, List.getElem?_concat_length, List.take_left']
  rfl

/-- **After every run the sessions have left the traces** of what was
recorded. -/
theorem traced_run (names : List (Option String)) (commands : List Command) :
    Traced names commands (run names commands) := by
  induction commands using List.reverseRecOn with
  | nil =>
    refine ⟨fun live _ hlive => ?_, fun _ hs => absurd hs List.not_mem_nil⟩
    exact absurd hlive (by simp [run, Capture.ofThreads])
  | append_singleton commands command ih =>
    obtain ⟨E, F, h⟩ := sound_run names commands
    have hm := minuted_run names commands
    have hpast := ih.past_concat hm command
    rw [run_append]
    have hstep := (run names commands).step_spec command
    generalize (run names commands).step command = p' at hstep ⊢
    cases hstep with
    | start hstart =>
      refine ⟨?_, hpast⟩
      rintro live _ hlive ⟨⟩
      exact Traces.start h.laned hstart hlive
    | stop hstop =>
      obtain ⟨live, hlive, -, hlane⟩ := stop_lane hstop
      obtain ⟨_, -, -, heq⟩ := stopped_eq hstop
      obtain ⟨m, hminutes⟩ := h.exists_minutes hlive
      refine ⟨fun live _ hnone => ?_, ?_⟩
      · rw [heq] at hnone
        exact absurd hnone (by simp)
      · intro s hs n
        rcases List.mem_append.mp hs with hs | hs
        · exact hpast s hs n
        · rw [List.mem_singleton.mp hs, hminutes]
          exact hlane n ▸ (ih.present_concat hm _ hlive hminutes).held n
    | @serve t request now hthread hrequest =>
      obtain ⟨hlt, hended⟩ := Sound.thread_of_hasThread hthread
      obtain ⟨flow, hserve⟩ := h.capture_serve t now hrequest
      obtain ⟨houtline, -⟩ := h.serve_capture hthread now hrequest
      refine ⟨fun live _ hlive hnoted => ?_, by rw [serve_past]; exact hpast⟩
      have hlive₀ : (run names commands).capture.session = some live :=
        houtline.session.symm.trans hlive
      obtain ⟨m, hminutes, rfl⟩ := Option.map_eq_some_iff.mp hnoted
      have htraces := (ih.present_concat hm (.call t request now) hlive₀ hminutes).renumber flow
      show Traces live _ ((run names commands).serve t now request).capture
      rw [hserve]
      cases hremark : (run names commands).remark? t request with
      | none => exact htraces
      | some e =>
        have hemitted := htraces.emit (h.laned.renumber flow) hlt hended hlive₀ e now
        rw [writes_renumber] at hemitted
        -- what the call asked for is the remark that the minutes have of it
        have hsame : tracesOf names (commands ++ [.call t request now])
            { m with remarks := m.remarks ++ [⟨(run names commands).place, t, e, now.stamp⟩] } =
            fun n => tracesOf names (commands ++ [.call t request now]) m n ++
              if (run names commands).capture.writes t e now = true ∧ n = (t : Int) + 1
              then [e.event n now.stamp
                (tracesOf names (commands ++ [.call t request now]) m n).length] else [] := by
          refine funext fun n => ?_
          rw [tracesOf_concat, hm.place, wasRecorded_length]
        exact hsame ▸ hemitted
    | @endThread t now hthread =>
      refine ⟨fun live m hlive hminutes => ?_, hpast⟩
      have hlive₀ : (run names commands).capture.session = some live :=
        (SameOutline.dropWriter _ t).session.symm.trans hlive
      exact (ih.present_concat hm _ hlive₀ hminutes).dropWriter h.laned hlive₀ t
    | ignored _ =>
      exact ⟨fun live m hlive hminutes => ih.present_concat hm command hlive hminutes, hpast⟩

/-! ## The call of an event -/

/-- What an event is the record of: its number is its place among what was
recorded of its thread. -/
def remarkOf? (names : List (Option String)) (commands : List Command) (m : Minutes)
    (e : Event) : Option Remark :=
  (recordsOf names commands m e.thread)[e.sequence.toNat]?

/-- No two remarks are of one call. -/
theorem nodup_places (names : List (Option String)) (commands : List Command)
    (first last : Nat) : ((remarksIn names commands first last).map Remark.place).Nodup := by
  rw [remarksIn, List.map_filterMap]
  refine List.Nodup.filterMap ?_ List.nodup_range
  have hplace : ∀ i place, ((if first < i then remarkAt? names commands i else none).map
      Remark.place) = some place → place = i := by
    intro i place hplace
    obtain ⟨r, hr, rfl⟩ := Option.map_eq_some_iff.mp hplace
    rw [Option.ite_none_right_eq_some] at hr
    exact (of_remarkAt? hr.2).1
  intro i j place hi hj
  rw [← hplace i place hi, ← hplace j place hj]

variable {s s' : PastSession} {e e' : Event} {r' : Remark}

namespace Traced

/-- **Every event is the record of a call** between the start and the stop of
its session. -/
theorem exists_remarkOf (hT : Traced names commands p) (hs : s ∈ p.past)
    (he : e ∈ s.recording.events) :
    ∃ r ∈ s.minutes.remarks, remarkOf? names commands s.minutes e = some r ∧
      e = r.emission.event e.thread r.stamp e.sequence.toNat ∧ (r.thread : Int) + 1 = e.thread := by
  have hmem : e ∈ tracesOf names commands s.minutes e.thread :=
    (hT.past s hs e.thread).subset (List.mem_filter.mpr ⟨he, by simp⟩)
  obtain ⟨i, hi, heq⟩ := List.mem_mapIdx.mp hmem
  have hsequence : e.sequence.toNat = i := by
    rw [← heq]
    exact Int.toNat_natCast i
  have hget : (recordsOf names commands s.minutes e.thread)[i]? = some
      (recordsOf names commands s.minutes e.thread)[i] := List.getElem?_eq_getElem hi
  have hr := (List.mem_filter.mp (List.getElem_mem hi)).1
  obtain ⟨hr, hthread⟩ := List.mem_filter.mp hr
  refine ⟨_, hr, ?_, ?_, by simpa using hthread⟩
  · rw [remarkOf?, hsequence]
    exact hget
  · rw [hsequence]
    exact heq.symm

/-- **No two events of a session are of one call.** -/
theorem eq_of_remarkOf (hT : Traced names commands p) (hm : Minuted names commands p)
    (hs : s ∈ p.past) (he : e ∈ s.recording.events) (he' : e' ∈ s.recording.events)
    (hr : remarkOf? names commands s.minutes e = some r)
    (hr' : remarkOf? names commands s.minutes e' = some r') (hplace : r.place = r'.place) :
    e = e' := by
  obtain ⟨r₁, hmem, hr₁, heq, hthread⟩ := hT.exists_remarkOf hs he
  obtain ⟨r₂, hmem', hr₂, heq', hthread'⟩ := hT.exists_remarkOf hs he'
  obtain rfl : r₁ = r := Option.some.inj (hr₁.symm.trans hr)
  obtain rfl : r₂ = r' := Option.some.inj (hr₂.symm.trans hr')
  have hplaces : (s.minutes.remarks.map Remark.place).Nodup := by
    rw [(hm.past s hs).2.2]
    exact nodup_places names commands _ _
  obtain rfl : r₁ = r₂ := List.inj_on_of_nodup_map hplaces hmem hmem' hplace
  have hthreads : e.thread = e'.thread := hthread.symm.trans hthread'
  -- a call has one place among what was recorded of its thread
  have hnodup : (recordsOf names commands s.minutes e.thread).Nodup :=
    ((List.Nodup.of_map Remark.place hplaces).filter _).filter _
  rw [remarkOf?] at hr hr'
  rw [← hthreads] at hr'
  have hindex := (List.getElem?_inj (List.getElem?_eq_some_iff.mp hr).1 hnodup).mp
    (hr.trans hr'.symm)
  rw [heq, heq', hindex, hthreads]

/-- No event is in a recording twice. -/
theorem nodup_events (hT : Traced names commands p) (hs : s ∈ p.past) :
    s.recording.events.Nodup := by
  have htraces : ∀ n, (tracesOf names commands s.minutes n).Nodup := by
    intro n
    refine List.Nodup.of_map Event.sequence ?_
    have hnumbers : (tracesOf names commands s.minutes n).map Event.sequence =
        (List.range (recordsOf names commands s.minutes n).length).map Int.ofNat := by
      refine List.ext_getElem (by simp [tracesOf]) ?_
      intro i hi _
      simp [tracesOf, Emission.event]
    rw [hnumbers]
    exact List.nodup_range.map fun i j hij => Int.ofNat.inj hij
  refine List.nodup_iff_count_le_one.mpr fun e => ?_
  have hcount : s.recording.events.count e = (ofThread e.thread s.recording.events).count e :=
    (List.count_filter (by simp)).symm
  rw [hcount]
  exact List.nodup_iff_count_le_one.mp
    ((hT.past s hs e.thread).sublist.nodup (htraces e.thread)) e

end Traced

end Program

end EventTrace
