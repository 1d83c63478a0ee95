import EventTrace.Proofs.Depot.Ownership
/-!
# Depot — how a write ends

A write ends in one of four ways: the writer was closed, the event was
filtered, the event was refused and counted as lost once, or it was counted
as admitted once and written. `writeEnds` says so, with the moves before and
after, and is the only place where a write is taken apart.
-/

namespace EventTrace

/-- The event that a writer makes of an emission. -/
def Writer.stamped (s : Writer) (e : Emission) (stamp : Int) : Event :=
  { id := e.id, thread := s.thread, timestamp := stamp, kind := e.kind, flow := e.flow,
    value := e.value, sequence := s.sequence }

/-- An event is filtered exactly when its id does not pass the filter. -/
theorem Screen.filtered_iff (s : Screen) (id : Int) (kind : Kind) (now : Int) :
    (s.screen id kind now).1 = .filtered ↔ (s.passesFilter id).1 = false := by
  unfold screen
  split
  · next h => simp [h]
  · next h =>
    rw [h]
    split
    · simp
    · split <;> simp

namespace Depot

variable {d d' : Depot} {c x : ChunkId} {k j : CollectorId} {w v : WriterId} {s : Writer}

/-! ## Room -/

/-- A chunk that a writer fills is left alone by every turn. -/
theorem Turn.chunk (h : Turn k d d') (hw : d.writer? w = some s) (hc : s.chunk = some c) :
    d'.chunk c = d.chunk c := by
  cases h with
  | keep hagree => exact hagree.chunk c
  | close => rfl
  | evict _ hevict =>
    obtain ⟨x, pre, post, -, -, rfl⟩ := evictOldest?_eq_some.mp hevict
    refine (chunk_giveBack ?_).trans rfl
    -- a chunk that a writer fills is not reset: it is still referred to
    have hfilling : 1 ≤ d.filling c := filling_pos hw hc
    rw [references_eq]
    show _ + _ + (heldIn d.rentals c + d.filling c) + _ ≠ 0
    omega

theorem Turns.chunk (h : Turns k d d') (hw : d.writer? w = some s) (hc : s.chunk = some c) :
    d'.chunk c = d.chunk c := by
  induction h with
  | refl => rfl
  | tail hturns hturn ih =>
    rw [hturn.chunk (by rw [Turns.writer? hturns, hw]) hc, ih]

/-- An empty chunk has room. -/
theorem Owned.isFull_eq_false (h : Owned d) (hc : (d.chunk c).events = #[]) :
    (d.chunk c).isFull = false := by
  have hroom : ¬ (d.chunk c).capacity ≤ 0 := Nat.not_le.mpr (h.room c)
  rw [Chunk.isFull, Chunk.size, hc]
  exact decide_eq_false hroom

theorem hold_closed (d : Depot) (w : WriterId) (k j : CollectorId) :
    ((d.hold w k).collector j).closed = (d.collector j).closed := closed_enterChunk d k j

/-- **A writer that found room holds a chunk with room**, of an open
session. -/
theorem Owned.holdRoom (h : Owned d) (hw : d.writer? w = some s) (hs : s.collector = some k)
    (hopen : (d.collector k).closed = false) (hroom : d.holdRoom w k = (true, d')) :
    Moves d d' ∧ ∃ c, d'.writer? w = some { s with chunk := some c } ∧
      (d'.chunk c).isFull = false ∧ (d'.collector k).closed = false := by
  rcases holdRoom_true hw hs hroom with
    ⟨c, hc, hfull, rfl⟩ | ⟨d₁, hmoves, hw₁, hopen₁, hroom₁, hagree⟩
  · refine ⟨.refl, c, ?_, hfull, hopen⟩
    rw [hw, ← hc]
  · have hheld : Moves d (d₁.hold w k) := hmoves.tail (.hold hw₁ hs rfl hopen₁ hroom₁)
    obtain ⟨hentered, hfresh⟩ := (h.moves hmoves).enterChunk k
    have hfull : ((d₁.hold w k).chunk (d₁.enterChunk k).1).isFull = false :=
      hentered.isFull_eq_false hfresh.events
    refine ⟨hheld.trans (Moves.of_agree hagree), (d₁.enterChunk k).1, ?_, ?_, ?_⟩
    · rw [hagree.writer?_eq, writer?_hold hw₁]
    · rw [hagree.chunk, hfull]
    · rw [hagree.closed, hold_closed, hopen₁]

/-! ## Placing an event -/

/-- Writes an event to a writer's chunk. -/
def post (d : Depot) (w : WriterId) (c : ChunkId) (event : Event) : Depot :=
  (d.modifyWriter w fun s => { s with sequence := s.sequence + 1 }).modifyChunk c (·.push event)

/-- Counts an event as admitted and writes it. -/
def accept (d : Depot) (k : CollectorId) (w : WriterId) (c : ChunkId) (event : Event) : Depot :=
  (d.modifyCollector k Collector.countEvent).post w c event

theorem writer?_accept (d : Depot) (k : CollectorId) (w : WriterId) (c : ChunkId) (event : Event) :
    (d.accept k w c event).writer? w =
      (d.writer? w).map fun s => { s with sequence := s.sequence + 1 } :=
  writer?_modifyWriter fun s => { s with sequence := s.sequence + 1 }

theorem writer?_accept_of_ne {v : WriterId} (h : v ≠ w) (event : Event) :
    (d.accept k w c event).writer? v = d.writer? v :=
  writer?_modifyWriter_of_ne h

/-- After a write every writer is as it was, but that one of them has counted
on. -/
theorem exists_writer?_accept {v : WriterId} {s' : Writer} {event : Event}
    (hv : (d.accept k w c event).writer? v = some s') : ∃ s, d.writer? v = some s ∧
      s' = { s with sequence := s.sequence + if v = w then 1 else 0 } := by
  by_cases hvw : v = w
  · subst hvw
    rw [writer?_accept, Option.map_eq_some_iff] at hv
    obtain ⟨s, hs, rfl⟩ := hv
    exact ⟨s, hs, by rw [if_pos rfl]⟩
  · rw [writer?_accept_of_ne hvw] at hv
    exact ⟨s', hv, by rw [if_neg hvw, Int.add_zero]⟩

/-- An admitted event is written: the chunk found still has room. -/
theorem Owned.append_true (h : Owned d) (hw : d.writer? w = some s) (hs : s.collector = some k)
    (hopen : (d.collector k).closed = false) {d₁ d₂ : Depot}
    (hroom : d.holdRoom w k = (true, d₁)) (hadmitted : d₁.admitEvent k = (true, d₂)) (e : Emission)
    (stamp : Int) : (d₂.append w e stamp).1 = true := by
  obtain ⟨-, c, hw₁, hfull, -⟩ := h.holdRoom hw hs hopen hroom
  obtain ⟨d₃, hturns, -, -, hagree⟩ := admitEvent_true hadmitted
  have hw₂ : d₂.writer? w = some { s with chunk := some c } := by
    rw [hagree.writer?_eq]
    exact (hturns.writer? w).trans hw₁
  have hfull₂ : (d₂.chunk c).isFull = false := by
    rw [hagree.chunk]
    exact (congrArg Chunk.isFull (hturns.chunk hw₁ rfl)).trans hfull
  simp [append, hw₂, hfull₂]

/-- **An event that is not placed is counted as lost once.** -/
theorem Owned.place_false (h : Owned d) (hw : d.writer? w = some s) (hs : s.collector = some k)
    (hopen : (d.collector k).closed = false) {e : Emission} {stamp : Int}
    (hplace : d.place w k e stamp = (false, d')) :
    ∃ d₁ reason, Moves d d₁ ∧ Moves (d₁.recordDropped k reason) d' := by
  unfold place at hplace
  split at hplace
  · next d₁ hroom =>
    simp only [Prod.mk.injEq, true_and] at hplace
    exact ⟨d₁, .maxTotalChunks, moves_holdRoom_false hw hs hroom, hplace ▸ .refl⟩
  · next d₁ hroom =>
    obtain ⟨hmoves, c, hw₁, hfull, hopen₁⟩ := h.holdRoom hw hs hopen hroom
    split at hplace
    · next d₂ hadmit =>
      simp only [Prod.mk.injEq, true_and] at hplace
      obtain ⟨d₃, reason, hbefore, hafter⟩ := admitEvent_false hadmit hopen₁
      refine ⟨d₃, reason, hmoves.trans (Moves.of_turns hbefore), ?_⟩
      rw [← hplace]
      exact Moves.of_turns hafter
    · next d₂ hadmit =>
      -- once the event is admitted it cannot fail to be written
      have happend := h.append_true hw hs hopen hroom hadmit e stamp
      rw [hplace] at happend
      exact absurd happend Bool.false_ne_true

/-- **An event that is placed is counted as admitted once** and written to
its writer's chunk. -/
theorem Owned.place_true (h : Owned d) (hw : d.writer? w = some s) (hs : s.collector = some k)
    (hopen : (d.collector k).closed = false) {e : Emission} {stamp : Int}
    (hplace : d.place w k e stamp = (true, d')) :
    ∃ d₁ c, Moves d d₁ ∧ d₁.writer? w = some { s with chunk := some c } ∧
      (d₁.chunk c).isFull = false ∧ (d₁.collector k).closed = false ∧
      (d₁.collector k).hasEventRoom = true ∧
      Agree (d₁.accept k w c (s.stamped e stamp)) d' := by
  unfold place at hplace
  split at hplace
  · simp at hplace
  · next d₁ hroom =>
    obtain ⟨hmoves, c, hw₁, hfull, hopen₁⟩ := h.holdRoom hw hs hopen hroom
    split at hplace
    · simp at hplace
    · next d₂ hadmit =>
      obtain ⟨d₃, hturns, hopen₃, hcap, hagree⟩ := admitEvent_true hadmit
      have hw₃ : d₃.writer? w = some { s with chunk := some c } := by
        rw [hturns.writer? w, hw₁]
      have hw₂ : d₂.writer? w = some { s with chunk := some c } :=
        (hagree.writer?_eq w).trans hw₃
      refine ⟨d₃, c, hmoves.trans (Moves.of_turns hturns), hw₃, ?_, hopen₃, hcap, ?_⟩
      · rw [hturns.chunk hw₁ rfl, hfull]
      · simp only [append, hw₂, Prod.mk.injEq] at hplace
        rw [← hplace.2]
        exact (hagree.modifyWriter_congr w _).modifyChunk_congr c _

/-! ## The four ends -/

/-- The session that a write goes to, none if the writer is closed. -/
def reaches (d : Depot) (w : WriterId) : Option CollectorId :=
  (d.writer? w).bind fun s => if d.isWriterClosed s then none else s.collector

/-- A writer with its tests as they are after an event. -/
def rescreen (d : Depot) (w : WriterId) (screen : Screen) : Depot :=
  d.modifyWriter w fun s => { s with screen }

theorem alike_rescreen (d : Depot) (w : WriterId) (screen : Screen) :
    Alike d (d.rescreen w screen) := .modifyWriter fun _ => rfl

theorem writer?_rescreen (hw : d.writer? w = some s) (screen : Screen) :
    (d.rescreen w screen).writer? w = some { s with screen } := by
  rw [rescreen, writer?_modifyWriter, hw]
  rfl

theorem reaches_eq_some :
    d.reaches w = some k ↔
      ∃ s, d.writer? w = some s ∧ s.collector = some k ∧ d.isWriterClosed s = false := by
  simp only [reaches, Option.bind_eq_some_iff, Option.ite_none_left_eq_some, Bool.not_eq_true]
  constructor
  · rintro ⟨s, hw, hclosed, hs⟩
    exact ⟨s, hw, hs, hclosed⟩
  · rintro ⟨s, hw, hs, hclosed⟩
    exact ⟨s, hw, hclosed, hs⟩

/-- A write goes to the writer's session if it goes anywhere. -/
theorem reaches_cases (hw : d.writer? w = some s) (hs : s.collector = some k) :
    d.reaches w = none ∨ d.reaches w = some k := by
  rw [reaches, hw, Option.bind_some, hs]
  split
  · exact .inl rfl
  · exact .inr rfl

/-- A writer that is not closed has an open session. -/
theorem open_of_reaches (h : d.reaches w = some k) : (d.collector k).closed = false := by
  obtain ⟨s, -, hs, hclosed⟩ := reaches_eq_some.mp h
  simp only [isWriterClosed, hs, Option.all_some, Bool.or_eq_false_iff] at hclosed
  exact hclosed.2

/-- A write that reaches no session detaches its writer. -/
theorem write_of_not_reaches (hreach : d.reaches w = none) (e : Emission) (now : Reading) :
    d.write w e now = (false, d.detach w) := by
  unfold write
  cases hw : d.writer? w with
  | none => simp [detach, hw]
  | some s =>
    dsimp only
    cases hs : s.collector with
    | none => rfl
    | some j =>
      have hclosed : d.isWriterClosed s = true := by
        simpa [reaches, hw, hs] using hreach
      simp [hclosed]

/-- A write that reaches its session is screened, and placed if it passes. -/
theorem write_of_reaches (hreach : d.reaches w = some k) (hw : d.writer? w = some s)
    (e : Emission) (now : Reading) : d.write w e now =
      let screened := s.screen.screen e.id e.kind now.arrival
      let b := d.rescreen w screened.2
      match screened.1 with
      | .filtered => (false, b)
      | .sampledOut => (false, b.recordSampledOut k)
      | .rateLimited => (false, b.recordRateLimited k)
      | .passed => b.place w k e now.stamp := by
  obtain ⟨r, hr, hj, hopen⟩ := reaches_eq_some.mp hreach
  rw [hw, Option.some.injEq] at hr
  subst hr
  simp only [write, hw, hj, hopen, Bool.false_eq_true, if_false]
  rfl

/-- What a write comes to. -/
inductive WriteEnds (d : Depot) (w : WriterId) (e : Emission) (now : Reading) :
    Bool × Depot → Prop
  /-- The writer was closed. -/
  | closed {d' : Depot} : d.reaches w = none → Moves d d' → WriteEnds d w e now (false, d')
  /-- The event's category is not recorded. -/
  | filtered {k : CollectorId} {s : Writer} {screen : Screen} :
      d.reaches w = some k → d.writer? w = some s → s.collector = some k →
      (s.screen.passesFilter e.id).1 = false →
      screen = (s.screen.screen e.id e.kind now.arrival).2 →
      WriteEnds d w e now (false, d.rescreen w screen)
  /-- The event was counted as lost. -/
  | refused {k : CollectorId} {s : Writer} {screen : Screen} {d₁ d₂ d' : Depot} :
      d.reaches w = some k → d.writer? w = some s → s.collector = some k →
      (s.screen.passesFilter e.id).1 = true →
      screen = (s.screen.screen e.id e.kind now.arrival).2 →
      Moves (d.rescreen w screen) d₁ → Refuses k d₁ d₂ → Moves d₂ d' →
      WriteEnds d w e now (false, d')
  /-- The event was written. -/
  | written {k : CollectorId} {s : Writer} {screen : Screen} {c : ChunkId} {d₁ d' : Depot} :
      d.reaches w = some k → d.writer? w = some s → s.collector = some k →
      (s.screen.passesFilter e.id).1 = true →
      screen = (s.screen.screen e.id e.kind now.arrival).2 →
      Moves (d.rescreen w screen) d₁ →
      d₁.writer? w = some { s with screen, chunk := some c } →
      (d₁.chunk c).isFull = false → (d₁.collector k).closed = false →
      Agree (d₁.accept k w c (s.stamped e now.stamp)) d' →
      (d₁.collector k).hasEventRoom = true → WriteEnds d w e now (true, d')

/-- **A write ends in one of four ways.** -/
theorem Owned.writeEnds (h : Owned d) (w : WriterId) (e : Emission) (now : Reading) :
    WriteEnds d w e now (d.write w e now) := by
  unfold write
  cases hw : d.writer? w with
  | none => exact .closed (by simp [reaches, hw]) .refl
  | some s =>
    dsimp only
    cases hs : s.collector with
    | none => exact .closed (by simp [reaches, hw, hs]) (moves_detach d w)
    | some k =>
      dsimp only
      split
      · next hclosed => exact .closed (by simp [reaches, hw, hclosed]) (moves_detach d w)
      · next hclosed =>
        have hreach : d.reaches w = some k :=
          reaches_eq_some.mpr ⟨s, hw, hs, by simpa using hclosed⟩
        generalize hscreen : s.screen.screen e.id e.kind now.arrival = screened
        obtain ⟨verdict, screen⟩ := screened
        have hpasses := Screen.filtered_iff s.screen e.id e.kind now.arrival
        have hsame : screen = (s.screen.screen e.id e.kind now.arrival).2 := by rw [hscreen]
        rw [hscreen] at hpasses
        have hw' := writer?_rescreen hw screen
        cases verdict with
        | filtered => exact .filtered hreach hw hs (hpasses.mp rfl) hsame
        | sampledOut =>
          exact .refused hreach hw hs (by simpa using hpasses) hsame .refl
            (refuses_recordSampledOut _ k) .refl
        | rateLimited =>
          exact .refused hreach hw hs (by simpa using hpasses) hsame .refl
            (refuses_recordRateLimited _ k) .refl
        | passed =>
          -- the tests have let the event pass; what is left is to place it
          have howned : Owned (d.rescreen w screen) := h.modifyWriter fun _ => .inl rfl
          have hopen : (d.collector k).closed = false := open_of_reaches hreach
          cases hplace : (d.rescreen w screen).place w k e now.stamp with
          | mk ok d' =>
            cases ok with
            | false =>
              obtain ⟨d₁, reason, hbefore, hafter⟩ := howned.place_false hw' hs hopen hplace
              have hends := WriteEnds.refused hreach hw hs (by simpa using hpasses) hsame hbefore
                (refuses_recordDropped d₁ k reason) hafter
              exact hplace ▸ hends
            | true =>
              obtain ⟨d₁, c, hbefore, hw₁, hfull, hopen₁, hcap, hagree⟩ :=
                howned.place_true hw' hs hopen hplace
              have hends := WriteEnds.written hreach hw hs (by simpa using hpasses) hsame hbefore
                hw₁ hfull hopen₁ hagree hcap
              exact hplace ▸ hends

end Depot

end EventTrace
