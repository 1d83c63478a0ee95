import EventTrace.Proofs.Depot.Slots
/-!
# Depot — what a writer does is no one else's business

A write may let a chunk go, give others up, take one from the free list and
count what it lost, but all of that in its own session: no other writer moves,
no other session's record changes nor any chunk that session rents, and no
close flag goes up (`Secluded`). Each stage of a write keeps that, and so does
the write (`Posted.secluded_write`).
-/

namespace EventTrace

namespace Depot

variable {d d' e : Depot} {c : ChunkId} {k j : CollectorId} {v w : WriterId} {s : Writer}
  {F : List CollectorId} {reason : Reason}

/-- Taking a chunk changes none that was there. -/
theorem chunk_take_of_lt (hc : c < d.chunks.size) : d.take.2.chunk c = d.chunk c := by
  unfold take
  split
  · rfl
  · simp [note, chunk, Array.getElem?_push, Nat.ne_of_lt hc]

/-- What a writer does in a session leaves other writers, what other sessions
have and all close flags as they were. -/
structure Secluded (v : WriterId) (j : CollectorId) (d d' : Depot) : Prop where
  capacity : d'.capacity = d.capacity
  links : d'.links = d.links
  others : ∀ w ≠ v, d'.writer? w = d.writer? w
  /-- The writer itself keeps its close flag. -/
  link : (d'.writer? v).map Writer.link = (d.writer? v).map Writer.link
  collectors : ∀ k ≠ j, d'.collector k = d.collector k
  /-- Its session keeps the close flags registered with it. -/
  registered : (d'.collector j).writers = (d.collector j).writers
  chunk : ∀ k ≠ j, ∀ c, d.Ledgers k c → d'.chunk c = d.chunk c
  evictions : ∀ k ≠ j, d'.evictions k = d.evictions k

namespace Secluded

theorem refl (v : WriterId) (j : CollectorId) (d : Depot) : Secluded v j d d :=
  ⟨rfl, rfl, fun _ _ => rfl, rfl, fun _ _ => rfl, rfl, fun _ _ _ _ => rfl, fun _ _ => rfl⟩

theorem trans (h : Secluded v j d d') (h' : Secluded v j d' e) : Secluded v j d e where
  capacity := h'.capacity.trans h.capacity
  links := h'.links.trans h.links
  others w hw := (h'.others w hw).trans (h.others w hw)
  link := h'.link.trans h.link
  collectors k hk := (h'.collectors k hk).trans (h.collectors k hk)
  registered := h'.registered.trans h.registered
  chunk k hk c hc := by
    have hc' : d'.Ledgers k c := by rwa [Ledgers, h.collectors k hk]
    exact (h'.chunk k hk c hc').trans (h.chunk k hk c hc)
  evictions k hk := (h'.evictions k hk).trans (h.evictions k hk)

theorem after (h : Secluded v j d' e) (h' : Secluded v j d d') : Secluded v j d e := h'.trans h

/-! ## Single changes -/

/-- A change of the session's record, but for its close flags. -/
theorem modifyCollector {f : Collector → Collector} (hf : ∀ s, (f s).writers = s.writers) :
    Secluded v j d (d.modifyCollector j f) where
  capacity := rfl
  links := rfl
  others _ _ := rfl
  link := rfl
  collectors _ hk := collector_modifyCollector_of_ne hk
  registered := congr_modifyCollector Collector.writers hf j
  chunk _ _ _ _ := rfl
  evictions _ _ := rfl

/-- A note, if it is not of another session's eviction. -/
theorem note {n : Notice} (hn : ∀ k ≠ j, n.eviction? k = none) : Secluded v j d (d.note n) where
  capacity := rfl
  links := rfl
  others _ _ := rfl
  link := rfl
  collectors _ _ := rfl
  registered := rfl
  chunk _ _ _ _ := rfl
  evictions k hk := by simp [Depot.evictions, Depot.note, hn k hk]

/-- A change of the writer, but for its close flag. -/
theorem modifyWriter {f : Writer → Writer} (hf : ∀ s, (f s).link = s.link) :
    Secluded v j d (d.modifyWriter v f) where
  capacity := rfl
  links := rfl
  others _ hw := writer?_modifyWriter_of_ne hw
  link := by
    rw [writer?_modifyWriter, Option.map_map]
    exact congrArg (Option.map · (d.writer? v)) (funext hf)
  collectors _ _ := rfl
  registered := rfl
  chunk _ _ _ _ := rfl
  evictions _ _ := rfl

/-- A change of a chunk that no other session rents. -/
theorem modifyChunk {f : Chunk → Chunk} (hc : ∀ k ≠ j, ¬ d.Ledgers k c) :
    Secluded v j d (d.modifyChunk c f) where
  capacity := rfl
  links := rfl
  others _ _ := rfl
  link := rfl
  collectors _ _ := rfl
  registered := rfl
  chunk k hk _ hx := chunk_modifyChunk_of_ne fun heq => hc k hk (heq ▸ hx)
  evictions _ _ := rfl

/-- A chunk offered is taken back only if no session rents it. -/
theorem giveBack (d : Depot) (c : ChunkId) : Secluded v j d (d.giveBack c).2 where
  capacity := giveBack_capacity d c
  links := by rw [giveBack_eq]
  others w _ := by rw [writer?, giveBack_writers, ← writer?]
  link := by rw [writer?, giveBack_writers, ← writer?]
  collectors k _ := by rw [collector, giveBack_collectors, ← collector]
  registered := by rw [collector, giveBack_collectors, ← collector]
  chunk _ _ _ hx := chunk_giveBack_of_ledgers hx c
  evictions k _ := (same_giveBack d c k).evictions

/-- A chunk taken from the free list, or made, is no other session's. -/
theorem enterChunk (h : Owned d) (v : WriterId) (j : CollectorId) :
    Secluded v j d (d.enterChunk j).2 := by
  have htaken : Secluded v j d d.take.2 := by
    refine ⟨take_capacity d, take_links d, fun w _ => ?_, ?_, fun k _ => collector_take d k,
      ?_, fun k _ x hx => chunk_take_of_lt (h.lt_size_of_ledgers hx),
      fun k _ => evictions_enterChunk d j k⟩
    · rw [writer?, take_writers, ← writer?]
    · rw [writer?, take_writers, ← writer?]
    · rw [collector_take]
  have hentered : Secluded v j d.take.2 (d.enterChunk j).2 := modifyCollector fun _ => rfl
  exact htaken.trans hentered

/-! ## Losses and room -/

theorem signal (d : Depot) (v : WriterId) (j : CollectorId) (reason : Reason) :
    Secluded v j d (d.signal j reason) := by
  unfold Depot.signal
  dsimp only
  split
  · exact .refl v j d
  · exact (note fun _ _ => rfl).after (modifyCollector fun _ => rfl)

theorem recordDropped (d : Depot) (v : WriterId) (j : CollectorId) (reason : Reason) :
    Secluded v j d (d.recordDropped j reason) :=
  (signal _ v j reason).after (modifyCollector fun _ => rfl)

theorem recordRateLimited (d : Depot) (v : WriterId) (j : CollectorId) :
    Secluded v j d (d.recordRateLimited j) :=
  (signal _ v j .rateLimit).after (modifyCollector fun _ => rfl)

theorem evict (hevict : d.evictOldest? j = some d') : Secluded v j d d' := by
  obtain ⟨c, pre, post, -, -, rfl⟩ := evictOldest?_eq_some.mp hevict
  refine ((giveBack _ c).after (note fun k hk => ?_)).after (modifyCollector fun _ => rfl)
  exact if_neg (Ne.symm hk)

theorem makeChunkRoom (n : Nat) (d : Depot) : Secluded v j d (makeChunkRoom n d j).2 := by
  induction n generalizing d with
  | zero => exact .refl v j d
  | succ n ih =>
    unfold Depot.makeChunkRoom
    cases hevict : d.evictOldest? j with
    | none => exact .refl v j d
    | some d₁ =>
      dsimp only
      split
      · exact evict hevict
      · exact (evict hevict).trans (ih d₁)

theorem makeEventRoom (n : Nat) (d : Depot) : Secluded v j d (makeEventRoom n d j) := by
  induction n generalizing d with
  | zero => exact .refl v j d
  | succ n ih =>
    unfold Depot.makeEventRoom
    split
    · exact .refl v j d
    · cases hevict : d.evictOldest? j with
      | none => exact .refl v j d
      | some d₁ => exact (evict hevict).trans (ih d₁)

theorem rentChunk (h : Owned d) (v : WriterId) (j : CollectorId) :
    Secluded v j d (d.rentChunk j).2 := by
  unfold Depot.rentChunk
  split
  · exact .refl v j d
  · next hopen =>
    rw [Bool.not_eq_true] at hopen
    split
    · exact enterChunk h v j
    · unfold rentAtCap
      split
      · exact signal d v j _
      · exact (signal d v j _).trans (modifyCollector fun _ => rfl)
      · have hturns := (turns_makeChunkRoom (d.collector j).ledger.length hopen).1
        have hmade : Secluded v j d (Depot.makeChunkRoom (d.collector j).ledger.length d j).2 :=
          makeChunkRoom _ d
        split
        · next hroom =>
          rw [hroom] at hmade
          exact hmade.trans (signal _ v j _)
        · next hroom =>
          rw [hroom] at hmade hturns
          have howned := h.moves (Moves.of_turns hturns)
          exact (hmade.trans (enterChunk howned v j)).trans (signal _ v j _)

theorem admitEvent (d : Depot) (v : WriterId) (j : CollectorId) :
    Secluded v j d (d.admitEvent j).2 := by
  have hcounted : ∀ e : Depot, Secluded v j e (e.modifyCollector j Collector.countEvent) :=
    fun e => modifyCollector fun _ => rfl
  unfold Depot.admitEvent
  dsimp only
  split
  · exact .refl v j d
  · split
    · exact hcounted d
    · split
      · exact recordDropped d v j _
      · exact (recordDropped d v j _).trans (modifyCollector fun _ => rfl)
      · have hmade : Secluded v j d (Depot.makeEventRoom (d.collector j).ledger.length d j) :=
          makeEventRoom _ d
        split
        · exact (hmade.trans (hcounted _)).trans (signal _ v j _)
        · exact hmade.trans (recordDropped _ v j _)

/-! ## The writer and its chunk -/

theorem releaseChunk (d : Depot) (v : WriterId) (j : CollectorId) (c : ChunkId) :
    Secluded v j d (d.releaseChunk j c) := by
  unfold Depot.releaseChunk
  split
  · exact giveBack d c
  · exact modifyCollector fun _ => rfl

theorem letGo (d : Depot) (v : WriterId) (j : CollectorId) : Secluded v j d (d.letGo v j) := by
  unfold Depot.letGo
  split
  · exact .refl v j d
  · exact (releaseChunk _ v j _).after (modifyWriter fun _ => rfl)

theorem holdRoom (h : Owned d) (v : WriterId) (j : CollectorId) :
    Secluded v j d (d.holdRoom v j).2 := by
  have hrenewed : Secluded v j d (d.renewChunk v j).2 := by
    have hrented := (letGo d v j).trans (rentChunk (h.letGo v j) v j)
    unfold renewChunk
    split
    · next hrent =>
      rw [hrent] at hrented
      exact hrented
    · next hrent =>
      rw [hrent] at hrented
      exact hrented.trans (modifyWriter fun _ => rfl)
  unfold Depot.holdRoom
  split
  · split
    · exact hrenewed
    · exact .refl v j d
  · exact hrenewed

/-- An event goes to the writer's chunk, which no other session rents. -/
theorem append (hw : d.writer? v = some s)
    (hown : ∀ c k, s.chunk = some c → d.Ledgers k c → k = j) (em : Emission) (stamp : Int) :
    Secluded v j d (d.append v em stamp).2 := by
  simp only [Depot.append, hw]
  cases hc : s.chunk with
  | none => exact .refl v j d
  | some c =>
    have hcounted : Secluded v j d
        (d.modifyWriter v fun s => { s with sequence := s.sequence + 1 }) :=
      modifyWriter fun _ => rfl
    exact hcounted.trans (modifyChunk fun k hk hin => hk (hown c k hc hin))

end Secluded

/-! ## Writes -/

/-- **An event is placed and no one else notices.** -/
theorem Posted.secluded_place (h : Posted F d) (hw : d.writer? v = some s)
    (hs : s.collector = some j) (hopen : (d.collector j).closed = false) (em : Emission)
    (stamp : Int) : Secluded v j d (d.place v j em stamp).2 := by
  have hheld := Secluded.holdRoom h.owned v j
  unfold place
  split
  · next d₁ hroom =>
    rw [hroom] at hheld
    exact hheld.trans (.recordDropped d₁ v j _)
  · next d₁ hroom =>
    rw [hroom] at hheld
    obtain ⟨hmoves, c, hw₁, -, -⟩ := h.owned.holdRoom hw hs hopen hroom
    have hadmitted := hheld.trans (.admitEvent d₁ v j)
    split
    · next d₂ hresult =>
      rw [hresult] at hadmitted
      exact hadmitted
    · next d₂ hresult =>
      rw [hresult] at hadmitted
      obtain ⟨d₃, hturns, -, -, hagree⟩ := admitEvent_true hresult
      have h₃ := (h.moves hmoves).moves (Moves.of_turns hturns)
      have hw₃ : d₃.writer? v = some { s with chunk := some c } := (hturns.writer? v).trans hw₁
      refine hadmitted.trans (.append ((hagree.writer?_eq v).trans hw₃) ?_ em stamp)
      -- counting an event moves no chunk, so the writer's is its own session's still
      intro x k hx hin
      have hledger : ((d₃.modifyCollector j Collector.countEvent).collector k).ledger =
          (d₃.collector k).ledger :=
        congr_modifyCollector (f := Collector.countEvent) Collector.ledger (fun _ => rfl) k
      have hin₃ : d₃.Ledgers k x := by
        have hin := hagree.ledgers.mp hin
        rwa [Ledgers, hledger] at hin
      exact h₃.own v j s.thread x k ⟨_, hw₃, hs, rfl, hx⟩ hin₃

/-- **A write that reaches its session is no one else's business.** -/
theorem Posted.secluded_write (h : Posted F d) (hreach : d.reaches v = some j) (em : Emission)
    (now : Reading) : Secluded v j d (d.write v em now).2 := by
  obtain ⟨s, hw, hs, -⟩ := reaches_eq_some.mp hreach
  have hscreened : ∀ screen, Secluded v j d (d.rescreen v screen) := fun screen =>
    .modifyWriter fun _ => rfl
  rw [write_of_reaches hreach hw]
  dsimp only
  split
  · exact hscreened _
  · exact (hscreened _).trans (.modifyCollector fun _ => rfl)
  · exact (hscreened _).trans (.recordRateLimited _ v j)
  · have hposted := h.rescreen hw em now.arrival
    have hopen : (d.collector j).closed = false := open_of_reaches hreach
    exact (hscreened _).trans
      (hposted.secluded_place (writer?_rescreen hw _) hs hopen em now.stamp)

end Depot

end EventTrace
