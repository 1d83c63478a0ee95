import EventTrace.Profile.Replay
import EventTrace.Proofs.Profile.Node
import Mathlib.Data.List.Induction
/-!
# Profile — the time of one thread

While the events of a thread are in order, what an open frame holds took place
between its begin and that of the frame above it, or now if it is the
innermost; what the roots hold took place before the outermost frame began
(`Spans`). So an end always finds room for what its frame holds and for what
the frames it abandons do, and no time is lost or made up as long as words
hold it (`ThreadState.Fits.step`): what a thread holds grows by the exclusive
ticks of each scope that closes. That no scope is measured to less than no
time takes only that words hold how long each lasts
(`ThreadState.valid_run`).
-/

namespace EventTrace

/-! ## What a frame holds -/

namespace Pending

variable {p q : Pending}

/-- The ticks are those of the nodes held, which are settled. -/
structure Settled (p : Pending) : Prop where
  ticks : p.ticks = Node.inclusiveSum p.children
  children : Node.AllSettled p.children

theorem settled_empty : Settled {} := ⟨rfl, Node.allSettled_nil⟩

theorem Settled.nonneg (h : p.Settled) : 0 ≤ p.ticks := by
  rw [h.ticks]
  exact h.children.inclusiveSum_nonneg

/-- What is taken over is held with the rest. -/
theorem Settled.adopt (h : p.Settled) (h' : q.Settled)
    (hfit : p.ticks + q.ticks ≤ TickRate.maxTicks) :
    (p.adopt q).Settled ∧ (p.adopt q).ticks = p.ticks + q.ticks := by
  have hticks : (p.adopt q).ticks = p.ticks + q.ticks :=
    Ticks.wrap_eq_of_nonneg (Int.add_nonneg h.nonneg h'.nonneg) hfit
  obtain ⟨hchildren, hsum⟩ := Node.settled_addAllTo q.children h'.children h.children
    (by rwa [← h.ticks, ← h'.ticks])
  exact ⟨⟨by rw [hticks, h.ticks, h'.ticks]; exact hsum.symm, hchildren⟩, hticks⟩

theorem settled_ofNode {node : Node} (h : node.Settled)
    (hchildren : Node.AllSettled node.children) : (ofNode node).Settled where
  ticks := by simp [ofNode]
  children := Node.allSettled_cons.mpr ⟨h, hchildren, Node.allSettled_nil⟩

/-- The ticks of what frames hold. -/
def ticksOf (frames : List (Frame Pending)) : Int := (frames.map fun f => f.data.ticks).sum

@[simp] theorem ticksOf_nil : ticksOf [] = 0 := rfl

@[simp] theorem ticksOf_cons (f : Frame Pending) (frames : List (Frame Pending)) :
    ticksOf (f :: frames) = f.data.ticks + ticksOf frames := rfl

theorem ticksOf_append (fs gs : List (Frame Pending)) :
    ticksOf (fs ++ gs) = ticksOf fs + ticksOf gs := by
  rw [ticksOf, List.map_append, List.sum_append]
  rfl

theorem ticksOf_reverse (frames : List (Frame Pending)) :
    ticksOf frames.reverse = ticksOf frames := by
  rw [ticksOf, List.map_reverse, List.sum_reverse]
  rfl

theorem ticksOf_nonneg {frames : List (Frame Pending)} (h : ∀ f ∈ frames, f.data.Settled) :
    0 ≤ ticksOf frames := by
  refine List.sum_nonneg fun ticks hticks => ?_
  obtain ⟨f, hf, rfl⟩ := List.mem_map.mp hticks
  exact (h f hf).nonneg

/-- What a frame holds with what it takes over from frames it abandons. -/
theorem settled_adopted (h : p.Settled) (lost : List (Frame Pending))
    (hlost : ∀ f ∈ lost, f.data.Settled) (hfit : p.ticks + ticksOf lost ≤ TickRate.maxTicks) :
    (lost.foldl (fun p f => p.adopt f.data) p).Settled ∧
      (lost.foldl (fun p f => p.adopt f.data) p).ticks = p.ticks + ticksOf lost := by
  induction lost generalizing p with
  | nil => exact ⟨h, by simp⟩
  | cons f rest ih =>
    have hrest : ∀ f ∈ rest, f.data.Settled := fun g hg => hlost g (List.mem_cons_of_mem _ hg)
    have hnonneg := ticksOf_nonneg hrest
    rw [ticksOf_cons] at hfit ⊢
    obtain ⟨hadopted, hfirst⟩ := h.adopt (hlost f List.mem_cons_self) (by omega)
    obtain ⟨hsettled, hticks⟩ := ih hadopted hrest (by omega)
    refine ⟨hsettled, ?_⟩
    rw [List.foldl_cons, hticks, hfirst]
    omega

end Pending

open Pending

/-! ## Frames and the time between them -/

/-- What each frame holds fits between its begin and the next, the innermost
first, and what is held below fits between a first instant and the outermost
begin. -/
def Spans (first below : Int) : Int → List (Frame Pending) → Prop
  | now, [] => below ≤ now - first
  | now, f :: rest => f.data.ticks ≤ now - f.start ∧ Spans first below f.start rest

namespace Spans

variable {first below now later : Int} {f : Frame Pending} {frames above : List (Frame Pending)}

/-- Time may pass. -/
theorem mono (h : Spans first below now frames) (hle : now ≤ later) :
    Spans first below later frames := by
  cases frames with
  | nil =>
    have h : below ≤ now - first := h
    show below ≤ later - first
    omega
  | cons f rest =>
    refine ⟨?_, h.2⟩
    have := h.1
    omega

/-- Frames above a frame hold no more than what passed since its begin. -/
theorem split (h : Spans first below now (above ++ f :: frames)) :
    ticksOf above + f.data.ticks ≤ now - f.start ∧ Spans first below f.start frames := by
  induction above generalizing now with
  | nil => exact ⟨by simpa using h.1, h.2⟩
  | cons g rest ih =>
    obtain ⟨hg, hrest⟩ := h
    obtain ⟨hticks, hframes⟩ := ih hrest
    refine ⟨?_, hframes⟩
    rw [ticksOf_cons]
    omega

/-- All together hold no more than what passed since the first instant. -/
theorem total (h : Spans first below now frames) : ticksOf frames + below ≤ now - first := by
  induction frames generalizing now with
  | nil =>
    have h : below ≤ now - first := h
    rw [ticksOf_nil]
    omega
  | cons f rest ih =>
    obtain ⟨hf, hrest⟩ := h
    have := ih hrest
    rw [ticksOf_cons]
    omega

end Spans

/-- A match of an end takes the frames apart. -/
theorem Nesting.eq_of_close {α : Type} {strict : Bool} {id : Int} {frames : List (Frame α)}
    {m : Match α} (h : (Nesting.close strict id frames).matched = some m) :
    frames = m.abandoned.reverse ++ m.frame :: m.below := by
  cases frames with
  | nil => exact absurd h (by simp [Nesting.close])
  | cons top below =>
    simp only [Nesting.close] at h
    split at h
    · have hm := (Option.some.inj h).symm
      subst hm
      rfl
    · split at h
      · exact absurd h (by simp)
      · split at h
        · exact absurd h (by simp)
        · next m' hm' =>
          have hm := (Option.some.inj h).symm
          subst hm
          simpa using (Nesting.eq_of_nearest? hm').1

/-- Matching an end finds no invalid duration. -/
theorem Nesting.invalidDurations_close {α : Type} (strict : Bool) (id : Int)
    (frames : List (Frame α)) :
    (Nesting.close strict id frames).anomalies.invalidDurations = 0 := by
  cases frames with
  | nil => rfl
  | cons top below =>
    simp only [Nesting.close]
    split
    · rfl
    · split
      · rfl
      · split
        · rfl
        · rfl

/-! ## A thread's state -/

namespace ThreadState

variable {s : ThreadState} {p : Pending} {e : Event} {m : Match Pending} {first now : Int}
  {strict : Bool}

/-- The ticks of every node of a thread that has no node above it yet. -/
def held (s : ThreadState) : Int := ticksOf s.frames + Node.inclusiveSum s.roots

/-- A word holds how long the scope lasts that an end closes, if it closes
one. -/
def Brief (strict : Bool) (s : ThreadState) (e : Event) : Prop :=
  e.kind = .scopeEnd → ∀ m, (Nesting.close strict e.id s.frames).matched = some m →
    e.timestamp - m.frame.start ≤ TickRate.maxTicks

/-- What a thread holds is settled and fits into the time since an instant. -/
structure Fits (first now : Int) (s : ThreadState) : Prop where
  frames : ∀ f ∈ s.frames, f.data.Settled
  roots : Node.AllSettled s.roots
  spans : Spans first (Node.inclusiveSum s.roots) now s.frames

namespace Fits

/-- Nothing fits into no time. -/
theorem empty (first : Int) : Fits first first {} where
  frames _ hf := absurd hf List.not_mem_nil
  roots := Node.allSettled_nil
  spans := by
    show (0 : Int) ≤ first - first
    omega

theorem mono (h : Fits first now s) {later : Int} (hle : now ≤ later) : Fits first later s :=
  ⟨h.frames, h.roots, h.spans.mono hle⟩

/-- What is handed down fits where it came from. -/
theorem handDown {start : Int} (h : Fits first start s) (hp : p.Settled)
    (hroom : p.ticks ≤ now - start) (hfit : s.held + p.ticks ≤ TickRate.maxTicks) :
    Fits first now (s.handDown p) ∧ (s.handDown p).held = s.held + p.ticks := by
  obtain ⟨frames, roots⟩ := s
  have hspans := h.spans
  have hroots := h.roots.inclusiveSum_nonneg
  have hticks := hp.ticks
  cases frames with
  | nil =>
    have hfit : 0 + Node.inclusiveSum roots + p.ticks ≤ TickRate.maxTicks := hfit
    obtain ⟨hsettled, hsum⟩ := Node.settled_addAllTo p.children hp.children h.roots
      (by dsimp only; omega)
    -- no frame is open, so the roots take it
    have hbelow : Node.inclusiveSum roots ≤ start - first := hspans
    dsimp only at hsum
    refine ⟨⟨h.frames, hsettled, ?_⟩, ?_⟩
    · show Node.inclusiveSum (Node.addAllTo p.children roots) ≤ now - first
      omega
    · show 0 + Node.inclusiveSum (Node.addAllTo p.children roots) =
        0 + Node.inclusiveSum roots + p.ticks
      omega
  | cons top below =>
    obtain ⟨htop, hbelow⟩ : top.data.ticks ≤ start - top.start ∧ _ := hspans
    have hrest := ticksOf_nonneg fun f hf => h.frames f (List.mem_cons_of_mem _ hf)
    have hfit : top.data.ticks + ticksOf below + Node.inclusiveSum roots + p.ticks ≤
        TickRate.maxTicks := hfit
    dsimp only at hroots
    obtain ⟨hadopted, hsum⟩ := (h.frames top List.mem_cons_self).adopt hp (by omega)
    refine ⟨⟨?_, h.roots, ?_, hbelow⟩, ?_⟩
    · intro f hf
      rcases List.mem_cons.mp hf with rfl | hf
      · exact hadopted
      · exact h.frames f (List.mem_cons_of_mem _ hf)
    · show (top.data.adopt p).ticks ≤ now - top.start
      omega
    · show (top.data.adopt p).ticks + ticksOf below + Node.inclusiveSum roots =
        top.data.ticks + ticksOf below + Node.inclusiveSum roots + p.ticks
      omega

/-- **A scope that closes has room for all it holds**, so its end is not
before its begin, and what the thread holds grows by its exclusive ticks. -/
theorem finish (h : Fits first now s) (hle : now ≤ e.timestamp)
    (hframes : s.frames = m.abandoned.reverse ++ m.frame :: m.below)
    (hbrief : e.timestamp - m.frame.start ≤ TickRate.maxTicks)
    (hfit : s.held + ((s.finish e m).2.closed.map ClosedScope.exclusive).getD 0 ≤
      TickRate.maxTicks) :
    Fits first e.timestamp (s.finish e m).1 ∧
      (s.finish e m).1.held =
        s.held + ((s.finish e m).2.closed.map ClosedScope.exclusive).getD 0 := by
  have hsettled : ∀ f ∈ m.abandoned.reverse ++ m.frame :: m.below, f.data.Settled :=
    hframes ▸ h.frames
  have hspans := h.spans.mono hle
  rw [hframes] at hspans
  obtain ⟨hticks, hbelow⟩ := hspans.split
  rw [ticksOf_reverse] at hticks
  -- the frame takes over what the frames it abandons hold
  obtain ⟨hheld, hsum⟩ := settled_adopted (hsettled m.frame (by simp)) m.abandoned
    (fun f hf => hsettled f (by simp [hf])) (by omega)
  have hnonneg := hheld.nonneg
  have htotal : s.held = ticksOf m.abandoned + m.frame.data.ticks + ticksOf m.below +
      Node.inclusiveSum s.roots := by
    rw [held, hframes, ticksOf_append, ticksOf_reverse, ticksOf_cons]
    omega
  have hrest : Fits first m.frame.start { s with frames := m.below } :=
    ⟨fun f hf => hsettled f (by simp [hf]), h.roots, hbelow⟩
  unfold ThreadState.finish at hfit ⊢
  generalize m.abandoned.foldl (fun p lost => p.adopt lost.data) m.frame.data = taken at *
  -- words hold how long it took and what is left of it
  have hinclusive : Ticks.wrap (e.timestamp - m.frame.start) = e.timestamp - m.frame.start :=
    Ticks.wrap_eq_of_nonneg (by omega) hbrief
  have hleft : Ticks.wrap (e.timestamp - m.frame.start - taken.ticks) =
      e.timestamp - m.frame.start - taken.ticks :=
    Ticks.wrap_eq_of_nonneg (by omega) (by omega)
  have hexclusive : max 0 (e.timestamp - m.frame.start - taken.ticks) =
      e.timestamp - m.frame.start - taken.ticks := by omega
  have hroom : ¬ e.timestamp - m.frame.start < 0 := by omega
  dsimp only at hfit ⊢
  rw [hinclusive, if_neg hroom, hleft, hexclusive] at hfit ⊢
  have hfit : s.held + (e.timestamp - m.frame.start - taken.ticks) ≤ TickRate.maxTicks := hfit
  -- The floor at zero did not act, so the node is settled.
  have hnode : (ofNode ⟨m.frame.id, 1, e.timestamp - m.frame.start,
      e.timestamp - m.frame.start - taken.ticks, taken.children⟩).Settled := by
    refine settled_ofNode ⟨?_, ?_⟩ hheld.children
    · show _ - taken.ticks = _ - Node.inclusiveSum taken.children
      rw [hheld.ticks]
    · show 0 ≤ e.timestamp - m.frame.start - taken.ticks
      omega
  have hleftHeld : ({ s with frames := m.below } : ThreadState).held =
      ticksOf m.below + Node.inclusiveSum s.roots := rfl
  have hinto : ({ s with frames := m.below } : ThreadState).held +
      (e.timestamp - m.frame.start) ≤ TickRate.maxTicks := by omega
  obtain ⟨hfits, hgrown⟩ :=
    hrest.handDown hnode (Int.le_refl (e.timestamp - m.frame.start)) hinto
  refine ⟨hfits, hgrown.trans ?_⟩
  show ticksOf m.below + Node.inclusiveSum s.roots + (e.timestamp - m.frame.start) =
    s.held + (e.timestamp - m.frame.start - taken.ticks)
  omega

/-- An end finds room or does nothing. -/
theorem close (h : Fits first now s) (hle : now ≤ e.timestamp) (hend : e.kind = .scopeEnd)
    (hbrief : s.Brief strict e)
    (hfit : s.held + ((s.close strict e).2.closed.map ClosedScope.exclusive).getD 0 ≤
      TickRate.maxTicks) :
    Fits first e.timestamp (s.close strict e).1 ∧
      (s.close strict e).1.held =
        s.held + ((s.close strict e).2.closed.map ClosedScope.exclusive).getD 0 := by
  unfold ThreadState.close at hfit ⊢
  dsimp only at hfit ⊢
  cases hmatch : (Nesting.close strict e.id s.frames).matched with
  | none => exact ⟨h.mono hle, (Int.add_zero _).symm⟩
  | some m =>
    rw [hmatch] at hfit
    exact h.finish hle (Nesting.eq_of_close hmatch) (hbrief hend m hmatch) hfit

/-- **A begin or an end that is not too early keeps everything fitting**, as
long as words hold the ticks. -/
theorem step (h : Fits first now s) (hle : now ≤ e.timestamp) (hbrief : s.Brief strict e)
    (hfit : s.held + ((s.step strict e).2.closed.map ClosedScope.exclusive).getD 0 ≤
      TickRate.maxTicks) :
    Fits first e.timestamp (s.step strict e).1 ∧
      (s.step strict e).1.held =
        s.held + ((s.step strict e).2.closed.map ClosedScope.exclusive).getD 0 := by
  unfold ThreadState.step at hfit ⊢
  split at hfit
  · refine ⟨⟨?_, h.roots, ?_, (h.mono hle).spans⟩, ?_⟩
    · intro f hf
      rcases List.mem_cons.mp hf with rfl | hf
      · exact settled_empty
      · exact h.frames f hf
    · show (0 : Int) ≤ e.timestamp - e.timestamp
      omega
    · show 0 + ticksOf s.frames + Node.inclusiveSum s.roots =
        ticksOf s.frames + Node.inclusiveSum s.roots + 0
      omega
  · next hend => exact h.close hle hend hbrief hfit
  · exact ⟨h.mono hle, (Int.add_zero _).symm⟩

/-- At the end of the stream all that is held comes to the roots. -/
theorem trees (h : Fits first now s) (hfit : s.held ≤ TickRate.maxTicks) :
    Node.AllSettled s.trees ∧ Node.inclusiveSum s.trees = s.held := by
  have hframes : ∀ f ∈ s.frames.reverse, f.data.Settled := fun f hf =>
    h.frames f (List.mem_reverse.mp hf)
  have hticks : (s.frames.reverse.map fun f => Node.inclusiveSum f.data.children).sum =
      ticksOf s.frames := by
    rw [← ticksOf_reverse, ticksOf, List.map_congr_left fun f hf => (hframes f hf).ticks]
  have hheld : s.held = Node.inclusiveSum s.roots +
      (s.frames.reverse.map fun f => Node.inclusiveSum f.data.children).sum := by
    rw [hticks, held, Int.add_comm]
  obtain ⟨hsettled, hsum⟩ := Node.settled_foldl_addAllTo (·.data.children) s.frames.reverse
    (fun f hf => (hframes f hf).children) h.roots (hheld ▸ hfit)
  exact ⟨hsettled, hsum.trans hheld.symm⟩

/-- And it is no more than the time that passed. -/
theorem held_le (h : Fits first now s) : s.held ≤ now - first := h.spans.total

end Fits

/-! ## Runs of a thread -/

/-- The state of a thread after its events. -/
def run (strict : Bool) (events : List Event) : ThreadState :=
  events.foldl (fun s e => (s.step strict e).1) {}

theorem run_append (strict : Bool) (events : List Event) (e : Event) :
    run strict (events ++ [e]) = ((run strict events).step strict e).1 := by
  rw [run, List.foldl_append]
  rfl

/-- What is neither a begin nor an end does nothing. -/
theorem step_of_not_isScope (he : e.kind.isScope = false) : s.step strict e = (s, {}) := by
  unfold ThreadState.step
  split
  · next hkind =>
    rw [hkind] at he
    exact absurd he (by decide)
  · next hkind =>
    rw [hkind] at he
    exact absurd he (by decide)
  · rfl

/-! ## Scopes that words can measure -/

/-- What is handed down opens no frame. -/
theorem frame_of_mem_handDown {f : Frame Pending} (hf : f ∈ (s.handDown p).frames) :
    ∃ g ∈ s.frames, g.start = f.start := by
  obtain ⟨frames, roots⟩ := s
  cases frames with
  | nil => exact absurd hf List.not_mem_nil
  | cons top below =>
    rcases List.mem_cons.mp hf with rfl | hf
    · exact ⟨top, List.mem_cons_self, rfl⟩
    · exact ⟨f, List.mem_cons_of_mem _ hf, rfl⟩

/-- A frame that is open after an event is the one it opens, or was open
before. -/
theorem frame_of_mem_step {f : Frame Pending} (hf : f ∈ (s.step strict e).1.frames) :
    (e.kind = .scopeBegin ∧ f.start = e.timestamp) ∨
      ∃ g ∈ s.frames, g.start = f.start := by
  unfold ThreadState.step at hf
  split at hf
  · next hbegin =>
    rcases List.mem_cons.mp hf with rfl | hf
    · exact .inl ⟨hbegin, rfl⟩
    · exact .inr ⟨f, hf, rfl⟩
  · unfold ThreadState.close at hf
    dsimp only at hf
    cases hmatch : (Nesting.close strict e.id s.frames).matched with
    | none =>
      rw [hmatch] at hf
      exact .inr ⟨f, hf, rfl⟩
    | some m =>
      rw [hmatch] at hf
      have hbelow : ∀ g ∈ m.below, g ∈ s.frames := fun g hg => by
        rw [Nesting.eq_of_close hmatch]
        simp [hg]
      unfold ThreadState.finish at hf
      dsimp only at hf
      split at hf
      · obtain ⟨g, hg, hsame⟩ := frame_of_mem_handDown hf
        exact .inr ⟨g, hbelow g hg, hsame⟩
      · obtain ⟨g, hg, hsame⟩ := frame_of_mem_handDown hf
        exact .inr ⟨g, hbelow g hg, hsame⟩
  · exact .inr ⟨f, hf, rfl⟩

/-- A frame that events leave open was opened by one of them. -/
theorem begin_of_mem_frames {events : List Event} {f : Frame Pending}
    (hf : f ∈ (run strict events).frames) :
    ∃ b ∈ events, b.kind = .scopeBegin ∧ b.timestamp = f.start := by
  induction events using List.reverseRecOn generalizing f with
  | nil => exact absurd hf List.not_mem_nil
  | append_singleton events e ih =>
    rw [run_append] at hf
    rcases frame_of_mem_step hf with ⟨hbegin, hstart⟩ | ⟨g, hg, hstart⟩
    · exact ⟨e, by simp, hbegin, hstart.symm⟩
    · obtain ⟨b, hb, hbegin, hbstart⟩ := ih hg
      exact ⟨b, by simp [hb], hbegin, hbstart.trans hstart⟩

/-- Words hold how long every scope lasts that events close, one by one. -/
def AllBrief (strict : Bool) (events : List Event) : Prop :=
  ∀ before e, before ++ [e] <+: events → (run strict before).Brief strict e

theorem allBrief_concat {events : List Event} : AllBrief strict (events ++ [e]) ↔
    AllBrief strict events ∧ (run strict events).Brief strict e := by
  constructor
  · intro h
    exact ⟨fun before a ha => h before a (ha.trans (List.prefix_append ..)),
      h events e List.prefix_rfl⟩
  · rintro ⟨hevents, hlast⟩ before a ha
    rcases List.prefix_concat_iff.mp ha with ha | ha
    · obtain ⟨rfl, ha⟩ := List.append_inj' ha rfl
      obtain rfl : a = e := by simpa using ha
      exact hlast
    · exact hevents before a ha

theorem AllBrief.of_isPrefix {events longer : List Event} (h : AllBrief strict longer)
    (hwithin : events <+: longer) : AllBrief strict events :=
  fun before e he => h before e (he.trans hwithin)

/-- It is enough that words hold how far any begin and any end are apart. -/
theorem allBrief_of_apart {events : List Event}
    (h : ∀ b ∈ events, ∀ e ∈ events, b.kind = .scopeBegin → e.kind = .scopeEnd →
      e.timestamp - b.timestamp ≤ TickRate.maxTicks) : AllBrief strict events := by
  intro before e hwithin hend m hmatch
  have hframe : m.frame ∈ (run strict before).frames := by
    rw [Nesting.eq_of_close hmatch]
    simp
  obtain ⟨b, hb, hbegin, hstart⟩ := begin_of_mem_frames hframe
  rw [← hstart]
  exact h b (hwithin.subset (by simp [hb])) e (hwithin.subset (by simp)) hbegin hend

/-- **An end that is not too early closes its scope in no less than no
time**, if a word holds how long it lasted. -/
theorem valid_step (hstarts : ∀ f ∈ s.frames, f.start ≤ e.timestamp)
    (hbrief : s.Brief strict e) : (s.step strict e).2.anomalies.invalidDurations = 0 := by
  unfold ThreadState.step
  split
  · rfl
  · next hend =>
    have hclean := Nesting.invalidDurations_close strict e.id s.frames
    unfold ThreadState.close
    dsimp only
    cases hmatch : (Nesting.close strict e.id s.frames).matched with
    | none => exact hclean
    | some m =>
      have hstart := hstarts m.frame (by rw [Nesting.eq_of_close hmatch]; simp)
      have hinclusive := Ticks.wrap_eq_of_nonneg (n := e.timestamp - m.frame.start) (by omega)
        (hbrief hend m hmatch)
      have hroom : ¬ e.timestamp - m.frame.start < 0 := by omega
      show (Nesting.close strict e.id s.frames).anomalies.invalidDurations +
        (s.finish e m).2.anomalies.invalidDurations = 0
      simp only [hclean, ThreadState.finish, hinclusive, if_neg hroom]
  · rfl

/-- So it is after events in order. -/
theorem valid_run {events : List Event}
    (hordered : (events ++ [e]).Pairwise fun a b => a.timestamp ≤ b.timestamp)
    (hbrief : (run strict events).Brief strict e) :
    ((run strict events).step strict e).2.anomalies.invalidDurations = 0 := by
  refine valid_step (fun f hf => ?_) hbrief
  obtain ⟨b, hb, -, hstart⟩ := begin_of_mem_frames hf
  rw [← hstart]
  exact (List.pairwise_append.mp hordered).2.2 b hb e List.mem_cons_self

end ThreadState

end EventTrace
