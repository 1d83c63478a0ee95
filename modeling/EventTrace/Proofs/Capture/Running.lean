import EventTrace.Capture.Guards
import EventTrace.Capture.Lifecycle
import EventTrace.Proofs.Depot.Posting
/-!
# Capture — what a process keeps while it runs

A run of a process is a list of acts: sessions started and stopped, events
emitted by its threads, threads that end, flow numbers given out. Scopes and
flows are made of these. After every run the live session, if there is one,
was not frozen yet and its writers are at their chunks (`InOrder`), so a stop
copies out exactly what the session has counted (`InOrder.counted`).
-/

namespace EventTrace

open Depot

/-- What happens to a process. -/
inductive Act where
  | start (options : Options) (now : Int)
  | stop (now : Int)
  | emit (t : ThreadId) (e : Emission) (now : Reading)
  | endThread (t : ThreadId)
  | newFlow
deriving Inhabited

namespace Capture

/-- The process after an act; a start or stop that fails changes nothing. -/
def act (c : Capture) : Act → Capture
  | .start o now =>
    match c.start o now with
    | .ok c' => c'
    | .error _ => c
  | .stop now =>
    match c.stop now with
    | .ok stopped => stopped.2
    | .error _ => c
  | .emit t e now => c.emit t e now
  | .endThread t => c.endThread t
  | .newFlow => c.newFlow.2

/-- A process with threads of some names after a run. -/
def after (names : List (Option String)) (acts : List Act) : Capture :=
  acts.foldl act (.ofThreads names)

end Capture

/-! ## The journal has no say -/

namespace Depot

variable {d d' : Depot} {k : CollectorId} {w : WriterId} {F : List CollectorId}

/-- What was told before does not matter to writers and their chunks. -/
theorem Posted.journal (h : Posted F d) (told : Array Notice) :
    Posted F { d with journal := told } where
  owned := ⟨h.owned.capacity_pos, h.owned.room, h.owned.unused, h.owned.alone, h.owned.empty,
    h.owned.ledgered_le, h.owned.writable_le⟩
  attached := h.attached
  honest := h.honest
  seated := h.seated
  own := h.own
  counted := h.counted

/-- A write makes no collector. -/
theorem WriteEnds.size {e : Emission} {now : Reading} {r : Bool × Depot}
    (hends : WriteEnds d w e now r) : r.2.collectors.size = d.collectors.size := by
  cases hends with
  | closed _ hmoves => exact hmoves.size
  | filtered => rfl
  | refused _ _ _ _ _ hbefore hrefuses hafter =>
    exact hafter.size.trans (hrefuses.size.trans hbefore.size)
  | written _ _ _ _ _ hbefore _ _ _ hagree =>
    have haccept : ∀ (d₁ : Depot) (k : CollectorId) (c : ChunkId) (event : Event),
        (d₁.accept k w c event).collectors.size = d₁.collectors.size :=
      fun _ _ _ _ => Array.size_modify
    exact hagree.size.trans ((haccept _ _ _ _).trans hbefore.size)

/-- A new writer makes no collector. -/
theorem size_newWriter (d : Depot) (k : CollectorId) (thread : Int) (name : Option String) :
    (d.newWriter k thread name).2.collectors.size = d.collectors.size := by
  obtain ⟨d₁, hagree, heq⟩ := newWriter_eq d k thread name
  rw [heq]
  exact hagree.size

end Depot

/-! ## Processes in order -/

namespace Capture

variable {c c' : Capture} {t : ThreadId} {live : LiveSession} {F : List CollectorId}

/-- The depot of a process is in order, and its live session was not frozen. -/
structure InOrder (F : List CollectorId) (c : Capture) : Prop where
  posted : Posted F c.depot
  made : ∀ k ∈ F, k < c.depot.collectors.size
  live : ∀ live, c.session = some live →
    live.collector < c.depot.collectors.size ∧ live.collector ∉ F

namespace InOrder

theorem ofThreads (names : List (Option String)) : InOrder [] (.ofThreads names) where
  posted := .ofCapacity 0
  made _ hk := absurd hk List.not_mem_nil
  live _ h := absurd h (by simp [Capture.ofThreads])

/-- A depot that makes no collector leaves the process in order. -/
theorem withDepot (h : InOrder F c) {d : Depot} (hposted : Posted F d)
    (hsize : d.collectors.size = c.depot.collectors.size) : InOrder F { c with depot := d } where
  posted := hposted
  made k hk := by
    show k < d.collectors.size
    rw [hsize]
    exact h.made k hk
  live live hlive := by
    show live.collector < d.collectors.size ∧ _
    rw [hsize]
    exact h.live live hlive

/-- Slots are not the depot's business. -/
theorem modifySlot (h : InOrder F c) (f : Slot → Slot) : InOrder F (c.modifySlot t f) :=
  ⟨h.posted, h.made, h.live⟩

theorem dropWriter (h : InOrder F c) (t : ThreadId) : InOrder F (c.dropWriter t) := by
  unfold Capture.dropWriter
  split
  · exact h
  · next w hw =>
    have hmoves := moves_dropWriter c.depot w
    exact (h.modifySlot _).withDepot (h.posted.moves hmoves) hmoves.size

theorem bind (h : InOrder F c) (t : ThreadId) : InOrder F (c.bind t).2 := by
  unfold Capture.bind
  dsimp only
  have hdropped := h.dropWriter t
  split
  · exact h
  · split
    · exact hdropped
    · next live hlive =>
      split
      · have hmade := hdropped.live live hlive
        have hposted := hdropped.posted.newWriter hmade.1 (c.slot t).number (c.slot t).name
        exact (hdropped.modifySlot _).withDepot hposted (size_newWriter _ _ _ _)
      · exact hdropped

theorem emit (h : InOrder F c) (t : ThreadId) (e : Emission) (now : Reading) :
    InOrder F (c.emit t e now) := by
  unfold Capture.emit
  have hbound := h.bind t
  split
  · exact h
  · split
    · next c₁ hc₁ => rwa [hc₁] at hbound
    · next w c₁ hc₁ =>
      rw [hc₁] at hbound
      have hends := hbound.posted.owned.writeEnds w e now
      exact hbound.withDepot (hbound.posted.writeEnds hends) hends.size

/-- A process with a depot for another capacity is in order, once its old
session is over. -/
theorem withDepotFor (h : InOrder F c) (capacity : Nat) :
    ∃ F', InOrder F' { c.withDepotFor capacity with session := none } := by
  unfold Capture.withDepotFor
  split
  · exact ⟨F, h.posted, h.made, fun _ hlive => absurd hlive (by simp)⟩
  · -- a depot made anew has frozen nothing yet
    have hfresh : Posted [] (Depot.ofCapacity capacity) := .ofCapacity capacity
    exact ⟨[], hfresh.journal _, fun _ hk => absurd hk List.not_mem_nil,
      fun _ hlive => absurd hlive (by simp)⟩

theorem start (h : InOrder F c) {o : Options} {now : Int} (hstart : c.start o now = .ok c') :
    ∃ F', InOrder F' c' := by
  obtain ⟨F', hopened⟩ := h.withDepotFor o.effectiveChunkCapacity
  unfold Capture.start at hstart
  split at hstart
  · exact absurd hstart (by simp)
  · split at hstart
    · exact absurd hstart (by simp)
    · have hc' := (Except.ok.inj hstart).symm
      subst hc'
      -- the session made is the last one, and only earlier ones were frozen
      refine ⟨F', (hopened.posted.newCollector o).agree (.note fun _ => rfl), ?_, ?_⟩
      · intro k hk
        have hk := hopened.made k hk
        show k < (Array.push _ _).size
        rw [Array.size_push]
        exact Nat.lt_succ_of_lt hk
      · intro live hlive
        have hlive := (Option.some.inj hlive).symm
        subst hlive
        refine ⟨?_, fun hin => Nat.lt_irrefl _ (hopened.made _ hin)⟩
        show _ < (Array.push _ _).size
        rw [Array.size_push]
        exact Nat.lt_succ_self _

end InOrder

/-- What a stop does: the session is closed with its writers, and its chunks
are copied out. -/
theorem stop_eq_ok {now : Int} {stopped : Recording × Capture} (hstop : c.stop now = .ok stopped) :
    ∃ live d, c.session = some live ∧
      d = ((c.depot.close live.collector).closeWriters live.collector).2 ∧
      stopped.1.chunks = (d.freeze live.collector).1 ∧ stopped.2.session = none ∧
      Agree (d.freeze live.collector).2 stopped.2.depot := by
  unfold Capture.stop at hstop
  split at hstop
  · next live hrunning hlive =>
    rcases hclosed : (c.depot.close live.collector).closeWriters live.collector with ⟨writers, d⟩
    rcases hfreeze : d.freeze live.collector with ⟨chunks, frozen⟩
    simp only [hclosed, hfreeze] at hstop
    have hstopped := (Except.ok.inj hstop).symm
    subst hstopped
    refine ⟨live, d, hlive, by rw [hclosed], by rw [hfreeze]; rfl, rfl, ?_⟩
    rw [hfreeze]
    exact .note fun _ => rfl
  · exact absurd hstop (by simp)

namespace InOrder

/-- A closed session with its writers closed counts what it counted. -/
theorem closing (h : InOrder F c) (k : CollectorId) :
    Posted F ((c.depot.close k).closeWriters k).2 ∧
      Same k c.depot ((c.depot.close k).closeWriters k).2 := by
  have hclosed := agree_closeWriters (c.depot.close k) k
  exact ⟨(h.posted.move (.turn k (.close _))).agree hclosed,
    (same_close c.depot k k).trans (hclosed.same k)⟩

theorem stop (h : InOrder F c) {now : Int} {stopped : Recording × Capture}
    (hstop : c.stop now = .ok stopped) : ∃ F', InOrder F' stopped.2 := by
  obtain ⟨live, d, hlive, hd, -, hsession, hagree⟩ := stop_eq_ok hstop
  have hposted : Posted F d := hd ▸ (h.closing live.collector).1
  have hsize : stopped.2.depot.collectors.size = c.depot.collectors.size := by
    rw [hagree.size, (freeze_spec d live.collector).2.size, hd,
      (agree_closeWriters (c.depot.close live.collector) live.collector).size]
    exact Array.size_modify
  refine ⟨live.collector :: F, (hposted.freeze live.collector).agree hagree, ?_,
    fun _ hnone => absurd (hsession.symm.trans hnone) (by simp)⟩
  intro k hk
  rw [hsize]
  rcases List.mem_cons.mp hk with rfl | hk
  · exact (h.live live hlive).1
  · exact h.made k hk

/-- **Every act leaves a process in order.** -/
theorem act (h : InOrder F c) (a : Act) : ∃ F', InOrder F' (c.act a) := by
  cases a with
  | start o now =>
    dsimp only [Capture.act]
    split
    · next c' hstart => exact h.start hstart
    · exact ⟨F, h⟩
  | stop now =>
    dsimp only [Capture.act]
    split
    · next stopped hstop => exact h.stop hstop
    · exact ⟨F, h⟩
  | emit t e now => exact ⟨F, h.emit t e now⟩
  | endThread t => exact ⟨F, h.dropWriter t⟩
  | newFlow => exact ⟨F, h.posted, h.made, h.live⟩

/-- **A process is in order after every run.** -/
theorem after (names : List (Option String)) (acts : List Act) :
    ∃ F, InOrder F (Capture.after names acts) := by
  have hrun : ∀ c, (∃ F, InOrder F c) → ∃ F, InOrder F (acts.foldl Capture.act c) := by
    induction acts with
    | nil => exact fun _ h => h
    | cons a acts ih =>
      rintro c ⟨F, h⟩
      exact ih _ (h.act a)
  exact hrun _ ⟨[], .ofThreads names⟩

/-- **A stop copies out what its session has counted.** -/
theorem counted (h : InOrder F c) {now : Int} {stopped : Recording × Capture}
    (hstop : c.stop now = .ok stopped) :
    ∃ live, c.session = some live ∧
      (c.depot.collector live.collector).eventCount = UInt64.ofNat stopped.1.eventCount := by
  obtain ⟨live, d, hlive, hd, hchunks, -, -⟩ := stop_eq_ok hstop
  obtain ⟨hposted, hsame⟩ := h.closing live.collector
  have hfrozen : stopped.1.eventCount = (d.contents live.collector).flatten.length := by
    rw [Recording.eventCount_eq_length_events, Recording.events, hchunks, flatten_freeze]
  refine ⟨live, hlive, ?_⟩
  rw [hfrozen, hd, ← hposted.counted _ (h.live live hlive).2, hsame.eventCount]

end InOrder

end Capture

end EventTrace
