import EventTrace.Proofs.Capture.Running
import EventTrace.Proofs.Depot.Roomy
/-!
# Capture — every thread in its lane

A thread's slot names the writer it used last and the version that writer is
of. `Laned` says what a process keeps of that while threads that have ended
emit no more: every writer on record is of the thread whose slot names it,
a thread has at most one writer in the live session, and only slots of the
current version name a writer of that session. So binding a thread never
makes a second writer of one session, and the events of a thread are those of
one writer.
-/

namespace EventTrace

open Depot

namespace Depot

variable {d d' : Depot} {k : CollectorId} {w : WriterId} {n : Int}
  {E : List (CollectorId × Int)} {F : List CollectorId}

/-! ## Depots with their writers on record -/

/-- A depot in order whose writers are on record, each thread once in a
session. -/
structure OnRecord (E : List (CollectorId × Int)) (F : List CollectorId) (d : Depot) :
    Prop where
  filed : Filed E F d
  nodup : E.Nodup
  length : E.length = d.writers.size
  known : ∀ p ∈ E, p.1 < d.collectors.size
  made : ∀ k ∈ F, k < d.collectors.size

namespace OnRecord

theorem ofCapacity (n : Nat) : OnRecord [] [] (Depot.ofCapacity n) where
  filed := .ofCapacity n
  nodup := List.nodup_nil
  length := rfl
  known _ hp := absurd hp List.not_mem_nil
  made _ hk := absurd hk List.not_mem_nil

/-- A change that makes no writer and no session. -/
theorem of_size (h : OnRecord E F d) (hfiled : Filed E F d')
    (hwriters : d'.writers.size = d.writers.size)
    (hcollectors : d'.collectors.size = d.collectors.size) : OnRecord E F d' where
  filed := hfiled
  nodup := h.nodup
  length := h.length.trans hwriters.symm
  known p hp := hcollectors ▸ h.known p hp
  made k hk := hcollectors ▸ h.made k hk

theorem moves (h : OnRecord E F d) (hm : Moves d d') : OnRecord E F d' :=
  h.of_size (h.filed.moves hm) (sameStaff_moves hm).size hm.size

theorem agree (h : OnRecord E F d) (ha : Agree d d') : OnRecord E F d' :=
  h.of_size (h.filed.agree ha) (by rw [ha.sameWriters]) ha.size

theorem write (h : OnRecord E F d) (w : WriterId) (e : Emission) (now : Reading) :
    OnRecord E F (d.write w e now).2 := by
  have hends := h.filed.posted.owned.writeEnds w e now
  have hfiled : Filed E F (d.write w e now).2 := by
    cases hdone : (d.write w e now).1 with
    | false => exact (h.filed.writeEnds_false hends hdone).1
    | true =>
      obtain ⟨-, -, -, -, hfiled, -⟩ := h.filed.writeEnds_true h.nodup hends hdone
      exact hfiled
  exact h.of_size hfiled (SamePlaces.writeEnds hends).size hends.size

/-- A writer of a thread that has none in the session. -/
theorem newWriter (h : OnRecord E F d) (hk : k < d.collectors.size) (hnew : (k, n) ∉ E)
    (name : Option String) : OnRecord (E ++ [(k, n)]) F (d.newWriter k n name).2 where
  filed := h.filed.newWriter h.length hk n name
  nodup := by
    refine List.nodup_append.mpr ⟨h.nodup, List.nodup_singleton _, ?_⟩
    rintro p hp q hq rfl
    exact hnew (List.mem_singleton.mp hq ▸ hp)
  length := by
    obtain ⟨d₁, hagree, heq⟩ := newWriter_eq d k n name
    rw [heq, List.length_append, h.length, ← hagree.sameWriters]
    exact (Array.size_push _).symm
  known p hp := by
    rw [size_newWriter]
    rcases List.mem_append.mp hp with hp | hp
    · exact h.known p hp
    · rwa [List.mem_singleton.mp hp]
  made j hj := by
    rw [size_newWriter]
    exact h.made j hj

theorem size_newCollector (d : Depot) (o : Options) :
    (d.newCollector o).2.collectors.size = d.collectors.size + 1 := Array.size_push _

theorem newCollector (h : OnRecord E F d) (o : Options) : OnRecord E F (d.newCollector o).2 where
  filed := h.filed.newCollector o
  nodup := h.nodup
  length := h.length
  known p hp := size_newCollector d o ▸ Nat.lt_succ_of_lt (h.known p hp)
  made k hk := size_newCollector d o ▸ Nat.lt_succ_of_lt (h.made k hk)

theorem freeze (h : OnRecord E F d) (hk : k < d.collectors.size) :
    OnRecord E (k :: F) (d.freeze k).2 where
  filed := h.filed.freeze k
  nodup := h.nodup
  length := h.length.trans (sameStaff_freeze d k).size.symm
  known p hp := (freeze_spec d k).2.size ▸ h.known p hp
  made j hj := by
    rw [(freeze_spec d k).2.size]
    rcases List.mem_cons.mp hj with rfl | hj
    · exact hk
    · exact h.made j hj

/-- The journal has no say. -/
theorem journal (h : OnRecord E F d) (told : Array Notice) :
    OnRecord E F { d with journal := told } where
  filed := ⟨h.filed.posted.journal told, h.filed.home, h.filed.alone, h.filed.signed,
    h.filed.held, h.filed.latest⟩
  nodup := h.nodup
  length := h.length
  known := h.known
  made := h.made

/-- A session holds nothing of a thread without a writer on record. -/
theorem heldOf_eq_nil (h : OnRecord E F d) (hk : k ∉ F) (hnone : (k, n) ∉ E) :
    d.heldOf k n = [] := by
  refine ofThread_eq_nil ?_
  rintro e he rfl
  obtain ⟨events, hevents, he⟩ := List.mem_flatten.mp he
  obtain ⟨entry, hentry, rfl⟩ := List.mem_map.mp hevents
  obtain ⟨t, ht, hall⟩ := h.filed.alone k entry.chunk hk (ledgers_of_mem hentry)
  rw [hall e (Array.mem_toList_iff.mp he)] at hnone
  exact hnone ht

end OnRecord

end Depot

namespace Capture

variable {c c' : Capture} {t u : ThreadId} {live : LiveSession} {w : WriterId} {n : Int}
  {E : List (CollectorId × Int)} {F : List CollectorId} {ended ended' : List ThreadId}

/-! ## Slots -/

theorem slot_modifySlot (c : Capture) (t u : ThreadId) (f : Slot → Slot) :
    (c.modifySlot t f).slot u =
      if u = t ∧ t < c.slots.size then f (c.slot t) else c.slot u := by
  unfold slot modifySlot
  dsimp only
  rw [Array.getElem?_modify]
  by_cases hu : u = t
  · subst hu
    by_cases hlt : u < c.slots.size
    · simp [hlt]
    · simp [hlt]
  · rw [if_neg fun h => hu h.symm, if_neg fun h => hu h.1]

theorem size_modifySlot (c : Capture) (t : ThreadId) (f : Slot → Slot) :
    (c.modifySlot t f).slots.size = c.slots.size := Array.size_modify

theorem slot_of_ge (h : c.slots.size ≤ t) : c.slot t = default := by
  rw [slot, Array.getElem?_eq_none h]
  rfl

theorem lt_size_of_writer (hw : (c.slot t).writer = some w) : t < c.slots.size := by
  by_contra hge
  rw [slot_of_ge (Nat.le_of_not_lt hge)] at hw
  exact absurd hw (by simp [default, instInhabitedSlot.default])

/-- A thread that drops its writer keeps the rest of its slot. -/
theorem slot_dropWriter (c : Capture) (t u : ThreadId) :
    (c.dropWriter t).slot u = if u = t then { c.slot t with writer := none } else c.slot u := by
  unfold dropWriter
  split
  · next hnone =>
    split
    · next hu => rw [hu, ← hnone]
    · rfl
  · next w hw =>
    show (c.modifySlot t _).slot u = _
    rw [slot_modifySlot]
    by_cases hu : u = t
    · rw [if_pos ⟨hu, lt_size_of_writer hw⟩, if_pos hu]
    · rw [if_neg fun h => hu h.1, if_neg hu]

/-- What a process shows beside its depot, its writers and its flow numbers is
the same. -/
structure SameOutline (c c' : Capture) : Prop where
  running : c'.running = c.running
  version : c'.version = c.version
  session : c'.session = c.session
  size : c'.slots.size = c.slots.size
  number : ∀ t, (c'.slot t).number = (c.slot t).number
  lent : ∀ t, (c'.slot t).lent = (c.slot t).lent

namespace SameOutline

theorem refl (c : Capture) : SameOutline c c :=
  ⟨rfl, rfl, rfl, rfl, fun _ => rfl, fun _ => rfl⟩

theorem trans {c'' : Capture} (h : SameOutline c c') (h' : SameOutline c' c'') :
    SameOutline c c'' where
  running := h'.running.trans h.running
  version := h'.version.trans h.version
  session := h'.session.trans h.session
  size := h'.size.trans h.size
  number t := (h'.number t).trans (h.number t)
  lent t := (h'.lent t).trans (h.lent t)

/-- A thread's writer changes with the depot. -/
theorem modifySlot (c : Capture) (t : ThreadId) (d : Depot) {f : Slot → Slot}
    (hnumber : ∀ s, (f s).number = s.number) (hlent : ∀ s, (f s).lent = s.lent) :
    SameOutline c { c.modifySlot t f with depot := d } where
  running := rfl
  version := rfl
  session := rfl
  size := size_modifySlot c t f
  number u := by
    show ((c.modifySlot t f).slot u).number = _
    rw [slot_modifySlot]
    split
    · next h => rw [hnumber, h.1]
    · rfl
  lent u := by
    show ((c.modifySlot t f).slot u).lent = _
    rw [slot_modifySlot]
    split
    · next h => rw [hlent, h.1]
    · rfl

theorem dropWriter (c : Capture) (t : ThreadId) : SameOutline c (c.dropWriter t) := by
  unfold Capture.dropWriter
  split
  · exact .refl c
  · exact .modifySlot c t _ (fun _ => rfl) fun _ => rfl

theorem bind (c : Capture) (t : ThreadId) : SameOutline c (c.bind t).2 := by
  have hdropped := dropWriter c t
  unfold Capture.bind
  dsimp only
  split
  · exact .refl c
  · split
    · exact hdropped
    · split
      · exact hdropped.trans (.modifySlot _ t _ (fun _ => rfl) fun _ => rfl)
      · exact hdropped

theorem emit (c : Capture) (t : ThreadId) (e : Emission) (now : Reading) :
    SameOutline c (c.emit t e now) := by
  have hbound := bind c t
  unfold Capture.emit
  split
  · exact .refl c
  · split
    · next c₁ hc₁ => rwa [hc₁] at hbound
    · next w c₁ hc₁ =>
      rw [hc₁] at hbound
      exact ⟨hbound.running, hbound.version, hbound.session, hbound.size, hbound.number,
        hbound.lent⟩

end SameOutline

/-- One slot names another writer or none, for some version; nothing else
changed but the depot. -/
structure Rewired (t : ThreadId) (version : Nat) (writer : Option WriterId) (c c' : Capture) :
    Prop where
  outline : SameOutline c c'
  version : (c'.slot t).version = version
  writer : (c'.slot t).writer = writer
  others : ∀ u ≠ t, c'.slot u = c.slot u

theorem rewired_modifySlot (ht : t < c.slots.size) (d : Depot) {f : Slot → Slot}
    (hnumber : ∀ s, (f s).number = s.number) (hlent : ∀ s, (f s).lent = s.lent) :
    Rewired t (f (c.slot t)).version (f (c.slot t)).writer c
      { c.modifySlot t f with depot := d } := by
  have hself : (c.modifySlot t f).slot t = f (c.slot t) := by
    rw [slot_modifySlot, if_pos ⟨rfl, ht⟩]
  refine ⟨.modifySlot c t d hnumber hlent, congrArg Slot.version hself, congrArg Slot.writer hself,
    fun u hu => ?_⟩
  show (c.modifySlot t f).slot u = c.slot u
  rw [slot_modifySlot, if_neg fun h => hu h.1]

/-! ## Lanes -/

/-- The writer a thread has for the current version. -/
def bound? (c : Capture) (t : ThreadId) : Option WriterId :=
  if (c.slot t).version = c.version then (c.slot t).writer else none

theorem bound?_eq_some :
    c.bound? t = some w ↔ (c.slot t).version = c.version ∧ (c.slot t).writer = some w := by
  unfold bound?
  split
  · next hversion => simp [hversion]
  · next hversion => simp [hversion]

/-- The writers on record are those of the threads, and a thread has at most
one in the live session; those that have ended have no more. -/
structure Laned (E : List (CollectorId × Int)) (F : List CollectorId) (ended : List ThreadId)
    (c : Capture) : Prop where
  record : OnRecord E F c.depot
  running : c.running = c.session.isSome
  /-- The live session is of the current version and not frozen. -/
  live : ∀ live, c.session = some live → live.version = c.version ∧
    live.collector < c.depot.collectors.size ∧ live.collector ∉ F
  number : ∀ t < c.slots.size, (c.slot t).number = t + 1
  lent : ∀ t, (c.slot t).lent = false
  version : ∀ t, (c.slot t).version ≤ c.version
  writer : ∀ t w, (c.slot t).writer = some w → ∃ k, E[w]? = some (k, (c.slot t).number)
  /-- A writer of the current version is of the live session. -/
  bound : ∀ live t w, c.session = some live → c.bound? t = some w →
    E[w]? = some (live.collector, (c.slot t).number)
  /-- Who is on record for the live session has a slot of its version. -/
  enrolled : ∀ live n, c.session = some live → (live.collector, n) ∈ E →
    ∃ t < c.slots.size, n = (c.slot t).number ∧ (c.slot t).version = c.version
  /-- A thread with a slot of its version keeps its writer until it ends. -/
  kept : ∀ live t, c.session = some live → t < c.slots.size → t ∉ ended →
    (c.slot t).version = c.version → (c.slot t).writer.isSome = true

/-- A thread that drops its writer is no less out of date. -/
theorem outdated_dropWriter (h : (c.slot t).version ≠ c.version) :
    ((c.dropWriter t).slot t).version ≠ (c.dropWriter t).version := by
  rw [slot_dropWriter, if_pos rfl, (SameOutline.dropWriter c t).version]
  exact h

namespace Laned

/-- While a session is live the process runs. -/
theorem isRunning (h : Laned E F ended c) (hlive : c.session = some live) : c.running = true := by
  rw [h.running, hlive, Option.isSome_some]

/-- Threads have numbers of their own. -/
theorem number_inj (h : Laned E F ended c) (ht : t < c.slots.size) (hu : u < c.slots.size)
    (hnumber : (c.slot t).number = (c.slot u).number) : t = u := by
  rw [h.number t ht, h.number u hu] at hnumber
  exact Int.ofNat.inj (add_right_cancel hnumber)

/-- No two threads have one writer. -/
theorem writer_inj (h : Laned E F ended c) (ht : (c.slot t).writer = some w)
    (hu : (c.slot u).writer = some w) : t = u := by
  obtain ⟨k, hk⟩ := h.writer t w ht
  obtain ⟨j, hj⟩ := h.writer u w hu
  rw [hk, Option.some.injEq, Prod.mk.injEq] at hj
  exact h.number_inj (lt_size_of_writer ht) (lt_size_of_writer hu) hj.2

/-- Nothing but the depot changes, and that keeps its record. -/
theorem withDepot (h : Laned E F ended c) {d : Depot} (hrecord : OnRecord E F d)
    (hsize : d.collectors.size = c.depot.collectors.size) :
    Laned E F ended { c with depot := d } :=
  { h with
    record := hrecord
    live := fun live hlive => by
      obtain ⟨hversion, hmade, hfrozen⟩ := h.live live hlive
      exact ⟨hversion, by rwa [← hsize] at hmade, hfrozen⟩ }

/-- **One slot changes with the depot**: it names another writer or none, for
the version it was of or the current one. -/
theorem rewire (h : Laned E F ended c) (ht : t < c.slots.size) {E' : List (CollectorId × Int)}
    {version : Nat} {writer : Option WriterId} (hr : Rewired t version writer c c')
    (hrecord : OnRecord E' F c'.depot)
    (hsize : c'.depot.collectors.size = c.depot.collectors.size)
    (hE : E <+: E') (hended : ∀ u ∈ ended, u ∈ ended')
    (hversion : version = (c.slot t).version ∨ version = c.version)
    (hnew : ∀ p ∈ E', p ∈ E ∨ p.2 = (c.slot t).number ∧ version = c.version)
    (hwriter : ∀ w, writer = some w → ∃ k, E'[w]? = some (k, (c.slot t).number) ∧
      ∀ live, c.session = some live → k = live.collector)
    (hkept : t ∉ ended' → version = c.version → writer.isSome = true) :
    Laned E' F ended' c' := by
  obtain ⟨houtline, hself, hselfWriter, hothers⟩ := hr
  have hcurrent : ∀ u, (c.slot u).version = c.version → (c'.slot u).version = c.version := by
    intro u hu
    by_cases hut : u = t
    · subst hut
      rw [hself]
      exact hversion.elim (·.trans hu) id
    · rw [hothers u hut, hu]
  have hprefix : ∀ {w : WriterId} {p : CollectorId × Int}, E[w]? = some p → E'[w]? = some p := by
    intro w p hp
    obtain ⟨tail, rfl⟩ := hE
    rw [List.getElem?_append_left (List.getElem?_eq_some_iff.mp hp).1, hp]
  refine ⟨hrecord, ?_, ?_, ?_, fun u => (houtline.lent u).trans (h.lent u), ?_, ?_, ?_, ?_, ?_⟩
  · rw [houtline.running, houtline.session]
    exact h.running
  · intro live hlive
    obtain ⟨hnow, hmade, hfrozen⟩ := h.live live (houtline.session.symm.trans hlive)
    rw [houtline.version, hsize]
    exact ⟨hnow, hmade, hfrozen⟩
  · intro u hu
    exact (houtline.number u).trans (h.number u (houtline.size ▸ hu))
  · intro u
    rw [houtline.version]
    by_cases hu : u = t
    · have := h.version t
      rw [hu, hself]
      omega
    · rw [hothers u hu]
      exact h.version u
  · intro u w hw
    rw [houtline.number]
    by_cases hu : u = t
    · subst hu
      obtain ⟨k, hk, -⟩ := hwriter w (hselfWriter.symm.trans hw)
      exact ⟨k, hk⟩
    · rw [hothers u hu] at hw
      obtain ⟨k, hk⟩ := h.writer u w hw
      exact ⟨k, hprefix hk⟩
  · intro live u w hlive hw
    have hlive₀ : c.session = some live := houtline.session.symm.trans hlive
    obtain ⟨huversion, hw⟩ := bound?_eq_some.mp hw
    rw [houtline.number]
    by_cases hu : u = t
    · subst hu
      obtain ⟨k, hk, hkey⟩ := hwriter w (hselfWriter.symm.trans hw)
      rw [hk, hkey live hlive₀]
    · rw [hothers u hu, houtline.version] at huversion
      rw [hothers u hu] at hw
      exact hprefix (h.bound live u w hlive₀ (bound?_eq_some.mpr ⟨huversion, hw⟩))
  · intro live n hlive hin
    rw [houtline.size, houtline.version]
    rcases hnew _ hin with hin | ⟨hn, hnow⟩
    · obtain ⟨u, hu, hn, huversion⟩ :=
        h.enrolled live n (houtline.session.symm.trans hlive) hin
      exact ⟨u, hu, hn.trans (houtline.number u).symm, hcurrent u huversion⟩
    · exact ⟨t, ht, hn.trans (houtline.number t).symm, hself.trans hnow⟩
  · intro live u hlive hu huended huversion
    rw [houtline.version] at huversion
    by_cases hut : u = t
    · subst hut
      rw [hselfWriter]
      exact hkept huended (hself.symm.trans huversion)
    · rw [hothers u hut] at huversion ⊢
      exact h.kept live u (houtline.session.symm.trans hlive) (houtline.size ▸ hu)
        (fun hin => huended (hended u hin)) huversion

/-- **A thread that ended, or whose writer is of an older version, may lose
its writer.** -/
theorem dropWriter (h : Laned E F ended c) (hended : ∀ u ∈ ended, u ∈ ended')
    (ht : t ∈ ended' ∨ (c.slot t).version ≠ c.version) : Laned E F ended' (c.dropWriter t) := by
  unfold Capture.dropWriter
  split
  · exact { h with
      kept := fun live u hlive hu huended =>
        h.kept live u hlive hu fun hin => huended (hended u hin) }
  · next w hw =>
    have hmoves := moves_dropWriter c.depot w
    have hlt := lt_size_of_writer hw
    have hr := rewired_modifySlot hlt (c.depot.dropWriter w)
      (f := fun s => { s with writer := none }) (fun _ => rfl) fun _ => rfl
    exact h.rewire hlt hr (h.record.moves hmoves) hmoves.size
      (List.prefix_refl E) hended (.inl rfl) (fun p hp => .inl hp)
      (fun _ hnone => absurd hnone (by simp))
      fun hnot hversion => ht.elim (absurd · hnot) (absurd hversion)

/-- A thread with a slot of an older version is not in the live session. -/
theorem not_enrolled (h : Laned E F ended c) (ht : t < c.slots.size)
    (hlive : c.session = some live) (hversion : (c.slot t).version ≠ c.version) :
    (live.collector, (c.slot t).number) ∉ E := by
  intro hin
  obtain ⟨u, hu, hnumber, huversion⟩ := h.enrolled live _ hlive hin
  obtain rfl := h.number_inj ht hu hnumber
  exact hversion huversion

/-- A thread without a writer of the live session gets one. -/
theorem newWriter (h : Laned E F ended c) (ht : t < c.slots.size)
    (hlive : c.session = some live) (hversion : (c.slot t).version ≠ c.version)
    (name : Option String) :
    Laned (E ++ [(live.collector, (c.slot t).number)]) F ended
      { c.modifySlot t fun s =>
          { s with version := c.version, writer := some c.depot.writers.size } with
        depot := (c.depot.newWriter live.collector (c.slot t).number name).2 } := by
  obtain ⟨-, hmade, -⟩ := h.live live hlive
  have hnew := h.not_enrolled ht hlive hversion
  have hr := rewired_modifySlot ht (c.depot.newWriter live.collector (c.slot t).number name).2
    (f := fun s => { s with version := c.version, writer := some c.depot.writers.size })
    (fun _ => rfl) fun _ => rfl
  refine h.rewire ht hr (h.record.newWriter hmade hnew name) (size_newWriter _ _ _ _)
    (List.prefix_append _ _) (fun _ => id) (.inr rfl) ?_ ?_ fun _ _ => rfl
  · intro p hp
    rcases List.mem_append.mp hp with hp | hp
    · exact .inl hp
    · rw [List.mem_singleton.mp hp]
      exact .inr ⟨rfl, rfl⟩
  · intro w hw
    refine ⟨live.collector, ?_, fun other hother => ?_⟩
    · rw [← Option.some.inj hw, ← h.record.length, List.getElem?_concat_length]
    · rw [hlive, Option.some.injEq] at hother
      rw [hother]

/-- The thread that ends loses its writer. -/
theorem endThread (h : Laned E F ended c) (t : ThreadId) :
    Laned E F (t :: ended) (c.endThread t) :=
  h.dropWriter (fun _ hu => List.mem_cons_of_mem _ hu) (.inl List.mem_cons_self)

/-- How a thread of the live session comes to its writer: it has it, or it
drops one of an older version and gets a new one. -/
theorem bind_cases (h : Laned E F ended c) (ht : t < c.slots.size) (hended : t ∉ ended)
    (hlive : c.session = some live) :
    (∃ w, c.bound? t = some w ∧ c.bind t = (some w, c)) ∨
      ((c.slot t).version ≠ c.version ∧ c.bind t = (some (c.dropWriter t).depot.writers.size,
        { (c.dropWriter t).modifySlot t fun s =>
            { s with version := c.version
                     writer := some (c.dropWriter t).depot.writers.size } with
          depot := ((c.dropWriter t).depot.newWriter live.collector
            ((c.dropWriter t).slot t).number (c.slot t).name).2 })) := by
  have houtline := SameOutline.dropWriter c t
  by_cases hversion : (c.slot t).version = c.version
  · have hsome := h.kept live t hlive ht hended hversion
    obtain ⟨w, hw⟩ := Option.isSome_iff_exists.mp hsome
    refine .inl ⟨w, bound?_eq_some.mpr ⟨hversion, hw⟩, ?_⟩
    simp [Capture.bind, hversion, hw]
  · refine .inr ⟨hversion, ?_⟩
    have hmade : ∀ name, ((c.dropWriter t).depot.newWriter live.collector (c.slot t).number
        name).1 = (c.dropWriter t).depot.writers.size := by
      intro name
      obtain ⟨d₁, -, heq⟩ :=
        newWriter_eq (c.dropWriter t).depot live.collector (c.slot t).number name
      rw [heq]
    have hsession : (c.dropWriter t).session = some live := houtline.session.trans hlive
    have hnow : live.version = (c.dropWriter t).version :=
      (h.live live hlive).1.trans houtline.version.symm
    simp only [Capture.bind, hversion, false_and, if_false, hsession, hnow, if_true, hmade,
      houtline.number, houtline.version]

/-! ## Acts -/

/-- While nothing runs an emission does nothing. -/
theorem emit_of_idle (h : Laned E F ended c) (hlive : c.session = none) (t : ThreadId)
    (e : Emission) (now : Reading) : c.emit t e now = c := by
  have hrunning : c.running = false := by rw [h.running, hlive, Option.isSome_none]
  simp [Capture.emit, hrunning]

/-- Binding a thread of the live session makes it a writer if it has none. -/
theorem bind (h : Laned E F ended c) (ht : t < c.slots.size) (hended : t ∉ ended)
    (hlive : c.session = some live) :
    ∃ w c₁ E', c.bind t = (some w, c₁) ∧ c₁.bound? t = some w ∧ Laned E' F ended c₁ := by
  rcases h.bind_cases ht hended hlive with ⟨w, hw, hbind⟩ | ⟨hversion, hbind⟩
  · exact ⟨w, c, E, hbind, hw, h⟩
  · have houtline := SameOutline.dropWriter c t
    have hdropped := h.dropWriter (fun _ => id) (.inr hversion)
    have hversion₁ := outdated_dropWriter hversion
    have ht₁ : t < (c.dropWriter t).slots.size := by rwa [houtline.size]
    have hmade := hdropped.newWriter ht₁ (houtline.session.trans hlive) hversion₁
      (c.slot t).name
    rw [houtline.version] at hmade
    refine ⟨_, _, _, hbind, ?_, hmade⟩
    refine bound?_eq_some.mpr ?_
    show ((Capture.modifySlot _ t _).slot t).version = (c.dropWriter t).version ∧ 
      ((Capture.modifySlot _ t _).slot t).writer = _
    rw [slot_modifySlot, if_pos ⟨rfl, ht₁⟩]
    exact ⟨houtline.version.symm, rfl⟩

/-- **Emissions keep every thread in its lane.** -/
theorem emit (h : Laned E F ended c) (ht : t < c.slots.size) (hended : t ∉ ended)
    (e : Emission) (now : Reading) : ∃ E', Laned E' F ended (c.emit t e now) := by
  cases hlive : c.session with
  | none =>
    rw [h.emit_of_idle hlive]
    exact ⟨E, h⟩
  | some live =>
    have hrunning := h.isRunning hlive
    obtain ⟨w, c₁, E', hbind, -, hbound⟩ := h.bind ht hended hlive
    have hemit : c.emit t e now = { c₁ with depot := (c₁.depot.write w e now).2 } := by
      simp [Capture.emit, hrunning, h.lent t, hbind]
    have hends := hbound.record.filed.posted.owned.writeEnds w e now
    rw [hemit]
    exact ⟨E', hbound.withDepot (hbound.record.write w e now) hends.size⟩

/-- A process with a depot for another capacity, once its session is over. -/
theorem withDepotFor (h : Laned E F ended c) (hidle : c.session = none) (capacity : Nat) :
    ∃ E' F', Laned E' F' ended (c.withDepotFor capacity) := by
  unfold Capture.withDepotFor
  split
  · exact ⟨E, F, h⟩
  · have hslot : ∀ u, (c.slots.map fun s => { s with writer := none })[u]?.getD default =
        { c.slot u with writer := none } := by
      intro u
      rw [Array.getElem?_map, slot]
      cases c.slots[u]? <;> rfl
    have hopened : OnRecord [] [] (({ Depot.ofCapacity capacity with
        journal := c.depot.journal } : Depot).note (.poolOpened capacity)) :=
      ((OnRecord.ofCapacity capacity).journal _).agree (.note fun _ => rfl)
    have hnone : ∀ live, c.session ≠ some live := fun live hlive => by
      rw [hidle] at hlive
      exact absurd hlive (by simp)
    refine ⟨[], [], hopened, h.running, fun live hlive => absurd hlive (hnone live), ?_, ?_, ?_,
      ?_, fun live _ _ hlive => absurd hlive (hnone live),
      fun live _ hlive => absurd hlive (hnone live),
      fun live _ hlive => absurd hlive (hnone live)⟩
    · intro u hu
      rw [Array.size_map] at hu
      exact (congrArg Slot.number (hslot u)).trans (h.number u hu)
    · exact fun u => (congrArg Slot.lent (hslot u)).trans (h.lent u)
    · exact fun u => (congrArg Slot.version (hslot u)).trans_le (h.version u)
    · intro u w hw
      exact absurd ((congrArg Slot.writer (hslot u)).symm.trans hw) (by simp)

end Laned

/-- The depot is of no session yet. -/
theorem version_withDepotFor (c : Capture) (capacity : Nat) :
    (c.withDepotFor capacity).version = c.version := by
  unfold withDepotFor
  split <;> rfl

/-- What a start does: the process has the depot it needs and a session of a
new version, whose collector is a new one. -/
theorem start_eq_ok {o : Options} {now : Int} (hstart : c.start o now = .ok c') :
    o.validate = .ok () ∧ c.running = false ∧ ∃ d live,
      d = (c.withDepotFor o.effectiveChunkCapacity).depot ∧
      live = { version := c.version + 1, collector := d.collectors.size, options := o,
               startTime := now : LiveSession } ∧
      Agree (d.newCollector o).2 c'.depot ∧
      c' = { c.withDepotFor o.effectiveChunkCapacity with
        running := true
        version := c.version + 1
        lastFlow := noFlow
        session := some live
        depot := c'.depot } := by
  have hversion := version_withDepotFor c o.effectiveChunkCapacity
  unfold start at hstart
  split at hstart
  · exact absurd hstart (by simp)
  · next hvalid =>
    split at hstart
    · exact absurd hstart (by simp)
    · next hidle =>
      have hc' := (Except.ok.inj hstart).symm
      subst hc'
      rw [hversion]
      exact ⟨hvalid, by simpa using hidle, _, _, rfl, rfl, .note fun _ => rfl, rfl⟩

/-- A stop leaves a process idle and its threads as they are; the recording
has the options of the session. -/
theorem stopped_eq {now : Int} {stopped : Recording × Capture} (hstop : c.stop now = .ok stopped) :
    ∃ live, c.session = some live ∧ stopped.1.options = live.options ∧
      stopped.2 = { c with running := false, session := none, depot := stopped.2.depot } := by
  unfold stop at hstop
  split at hstop
  · next live _ hlive =>
    have hstopped := (Except.ok.inj hstop).symm
    subst hstopped
    exact ⟨live, hlive, rfl, rfl⟩
  · exact absurd hstop (by simp)

namespace Laned

theorem idle_of_start (h : Laned E F ended c) {o : Options} {now : Int}
    (hstart : c.start o now = .ok c') : c.session = none := by
  obtain ⟨-, hidle, -⟩ := start_eq_ok hstart
  rw [← Option.not_isSome_iff_eq_none, ← h.running, hidle]
  exact Bool.false_ne_true

/-- When a session starts no thread has a writer in it. -/
theorem version_start (h : Laned E F ended c) {o : Options} {now : Int}
    (hstart : c.start o now = .ok c') (t : ThreadId) : (c'.slot t).version ≠ c'.version := by
  obtain ⟨-, -, _, _, -, -, -, heq⟩ := start_eq_ok hstart
  obtain ⟨E', F', hopened⟩ := h.withDepotFor (h.idle_of_start hstart) o.effectiveChunkCapacity
  have hversion := version_withDepotFor c o.effectiveChunkCapacity
  have hle := hopened.version t
  rw [heq]
  show ((c.withDepotFor o.effectiveChunkCapacity).slot t).version ≠ c.version + 1
  omega

/-- **A start leaves the threads in their lanes**, none of them in the new
session yet. -/
theorem start (h : Laned E F ended c) {o : Options} {now : Int}
    (hstart : c.start o now = .ok c') : ∃ E' F', Laned E' F' ended c' := by
  obtain ⟨-, -, d, live, rfl, hlive, hagree, heq⟩ := start_eq_ok hstart
  have hold := h.version_start hstart
  obtain ⟨E', F', hopened⟩ := h.withDepotFor (h.idle_of_start hstart) o.effectiveChunkCapacity
  have hversion := version_withDepotFor c o.effectiveChunkCapacity
  have hrecord := (hopened.record.newCollector o).agree hagree
  have hsize : c'.depot.collectors.size =
      (c.withDepotFor o.effectiveChunkCapacity).depot.collectors.size + 1 := by
    rw [hagree.size, OnRecord.size_newCollector]
  refine ⟨E', F', ?_⟩
  rw [heq] at hold ⊢
  refine ⟨hrecord, rfl, ?_, hopened.number, hopened.lent, ?_, hopened.writer, ?_, ?_, ?_⟩
  · rintro _ ⟨⟩
    refine ⟨hlive ▸ rfl, ?_, fun hin => ?_⟩
    · show live.collector < c'.depot.collectors.size
      rw [hsize, hlive]
      exact Nat.lt_succ_self _
    · rw [hlive] at hin
      exact Nat.lt_irrefl _ (hopened.record.made _ hin)
  · intro u
    have := hopened.version u
    show ((c.withDepotFor o.effectiveChunkCapacity).slot u).version ≤ c.version + 1
    omega
  · intro _ u w _ hw
    exact absurd (bound?_eq_some.mp hw).1 (hold u)
  · rintro _ n ⟨⟩ hin
    rw [hlive] at hin
    exact absurd (hopened.record.known _ hin) (Nat.lt_irrefl _)
  · intro _ u _ _ _ hversion
    exact absurd hversion (hold u)

/-- **A stop leaves the threads in their lanes.** -/
theorem stop (h : Laned E F ended c) {now : Int} {stopped : Recording × Capture}
    (hstop : c.stop now = .ok stopped) : ∃ F', Laned E F' ended stopped.2 := by
  obtain ⟨live, d, hlive, rfl, -, -, hagree⟩ := stop_eq_ok hstop
  obtain ⟨-, -, -, heq⟩ := stopped_eq hstop
  have hmade := (h.live live hlive).2.1
  have hclosed : Moves c.depot (c.depot.close live.collector) := .single (.turn _ (.close _))
  have hagree₁ := agree_closeWriters (c.depot.close live.collector) live.collector
  have hsize : live.collector <
      ((c.depot.close live.collector).closeWriters live.collector).2.collectors.size := by
    rwa [hagree₁.size, hclosed.size]
  have hrecord := (((h.record.moves hclosed).agree hagree₁).freeze hsize).agree hagree
  refine ⟨live.collector :: F, ?_⟩
  rw [heq]
  exact ⟨hrecord, rfl, fun _ hnone => absurd hnone (by simp), h.number, h.lent, h.version,
    h.writer, fun _ _ _ hnone => absurd hnone (by simp), fun _ _ hnone => absurd hnone (by simp),
    fun _ _ hnone => absurd hnone (by simp)⟩

/-- Flow numbers are no one's lane. -/
theorem renumber (h : Laned E F ended c) (flow : Int) :
    Laned E F ended { c with lastFlow := flow } :=
  ⟨h.record, h.running, h.live, h.number, h.lent, h.version, h.writer, h.bound, h.enrolled,
    h.kept⟩

theorem ofThreads (names : List (Option String)) : Laned [] [] [] (.ofThreads names) := by
  have hslot : ∀ t, (Capture.ofThreads names).slot t =
      (names[t]?.map fun name => ({ number := t + 1, name } : Slot)).getD default := by
    intro t
    simp only [Capture.ofThreads, slot, List.getElem?_toArray, List.getElem?_map,
      List.getElem?_zipIdx, Option.map_map, Nat.zero_add]
    rfl
  have hsize : (Capture.ofThreads names).slots.size = names.length := by
    simp [Capture.ofThreads]
  have hfresh : ∀ t, ((Capture.ofThreads names).slot t).lent = false ∧
      ((Capture.ofThreads names).slot t).version = 0 ∧
      ((Capture.ofThreads names).slot t).writer = none := by
    intro t
    rw [hslot]
    cases names[t]? <;> exact ⟨rfl, rfl, rfl⟩
  have hidle : ∀ live, (Capture.ofThreads names).session ≠ some live := fun live hlive =>
    absurd hlive (by simp [Capture.ofThreads])
  refine ⟨.ofCapacity 0, rfl, fun live hlive => absurd hlive (hidle live), ?_,
    fun t => (hfresh t).1, fun t => Nat.le_of_eq (hfresh t).2.1, ?_,
    fun live _ _ hlive => absurd hlive (hidle live), fun live _ hlive => absurd hlive (hidle live),
    fun live _ hlive => absurd hlive (hidle live)⟩
  · intro t ht
    rw [hslot, List.getElem?_eq_getElem (hsize ▸ ht)]
    rfl
  · intro t w hw
    rw [(hfresh t).2.2] at hw
    exact absurd hw (by simp)

end Laned

end Capture

end EventTrace
