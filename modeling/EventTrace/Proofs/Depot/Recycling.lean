import EventTrace.Proofs.Depot.Posting
/-!
# Depot — no chunk is lost

A chunk has no owner but those who refer to it, so one that nobody refers to
is lost. `Kept` says that there is none, but for a chunk in hand between two
holders; each procedure takes a chunk in hand and passes it on. It is passed
on to the free list only if no one else refers to it, and else whoever does
is the one to pass it on later. A writer that lets go in an open session
relies on the ledger to refer to its chunk still, which holds as long as no
session is frozen before it is closed (`Recycling.move`).
-/

namespace EventTrace

open Depot

namespace Depot

variable {d d' e : Depot} {c x : ChunkId} {k j : CollectorId} {w v : WriterId} {s : Writer}
  {hand hand' : Option ChunkId} {F : List CollectorId}

/-! ## References, kept -/

/-- A change of a collector keeps a chunk's references if it keeps its
entries. -/
theorem references_modifyCollector {f : Collector → Collector}
    (hf : (d.collector k).ledger.countP (·.chunk == x) ≤
      (f (d.collector k)).ledger.countP (·.chunk == x)) :
    d.references x ≤ (d.modifyCollector k f).references x := by
  rcases Nat.lt_or_ge k d.collectors.size with hk | hk
  · have hsum := ledgered_modifyCollector (f := f) (c := x) hk
    rw [references_eq, references_eq]
    show d.free.count x + d.ledgered x + d.writable x + heldIn d.shares x ≤
      d.free.count x + (d.modifyCollector k f).ledgered x + d.writable x + heldIn d.shares x
    omega
  · rw [modifyCollector_of_ge hk]

/-- A change of a writer keeps a chunk's references if the writer goes on
filling it. -/
theorem references_modifyWriter {f : Writer → Writer}
    (hf : ∀ s, d.writer? w = some s → s.chunk = some x → (f s).chunk = some x) :
    d.references x ≤ (d.modifyWriter w f).references x := by
  have hfilling : d.filling x ≤ (d.modifyWriter w f).filling x := by
    cases hw : d.writer? w with
    | none => exact Nat.le_of_eq (filling_modifyWriter_of_none hw).symm
    | some s =>
      have hsum := filling_modifyWriter (f := f) (c := x) hw
      by_cases hs : s.chunk = some x
      · rw [hs, hf s hw hs] at hsum
        omega
      · rw [beq_eq_false_iff_ne.mpr hs, Bool.toNat_false] at hsum
        omega
  rw [references_eq, references_eq]
  show d.free.count x + d.ledgered x + (heldIn d.rentals x + d.filling x) + heldIn d.shares x ≤
    d.free.count x + d.ledgered x + (heldIn d.rentals x + (d.modifyWriter w f).filling x) +
      heldIn d.shares x
  omega

theorem references_vacate (hw : d.writer? w = some s) (hs : s.chunk = none) :
    d.references x ≤ (d.vacate w).references x := by
  have hsum := countP_modify (p := fun w : Option Writer => w.any (·.chunk == some x))
    (f := fun _ => none) (getElem?_of_writer? hw)
  have hfilling : d.filling x ≤ (d.vacate w).filling x := by
    simp only [Option.any_some, hs, Option.any_none, Bool.toNat_false] at hsum
    exact Nat.le_trans (Nat.le_add_right _ _) (Nat.le_of_eq hsum.symm)
  rw [references_eq, references_eq]
  show d.free.count x + d.ledgered x + (heldIn d.rentals x + d.filling x) + heldIn d.shares x ≤
    d.free.count x + d.ledgered x + (heldIn d.rentals x + (d.vacate w).filling x) +
      heldIn d.shares x
  omega

/-- An offer lets no reference go. -/
theorem references_giveBack (d : Depot) (c x : ChunkId) :
    d.references x ≤ (d.giveBack c).2.references x := by
  unfold giveBack
  split
  · have hafter := references_withFree (d.modifyChunk c Chunk.reset) (c :: d.free) x
    refine Nat.le_trans ?_ (Nat.le_of_eq hafter.symm)
    rw [references_eq d x, List.count_cons]
    show d.free.count x + d.ledgered x + d.writable x + heldIn d.shares x ≤
      d.free.count x + _ + d.ledgered x + d.writable x + heldIn d.shares x
    omega
  · exact Nat.le_refl _

/-- What is offered is referred to: it is free now, or was not taken since
someone else does. -/
theorem references_giveBack_self (hc : (d.chunk c).capacity = d.capacity) :
    (d.giveBack c).2.references c ≠ 0 := by
  unfold giveBack
  split
  · show references { d.modifyChunk c Chunk.reset with free := c :: d.free } c ≠ 0
    rw [references_withFree, List.count_cons_self]
    omega
  · next hnot => exact fun hzero => hnot ⟨hc, hzero⟩

/-! ## Chunks in stock -/

/-- The same chunks are in stock. -/
structure SameStock (d d' : Depot) : Prop where
  capacity : d'.capacity = d.capacity
  chunks : d'.chunks = d.chunks
  allocated : d'.allocated = d.allocated
  rentals : d'.rentals = d.rentals
  shares : d'.shares = d.shares

/-- No writer holds a chunk after it has left its session. -/
def Unseated (d : Depot) : Prop :=
  ∀ w s, d.writer? w = some s → s.collector = none → s.chunk = none

/-- Every chunk there ever was is referred to, but for one that may be in
hand; none is rented out or shared, and all are of one capacity. -/
structure Kept (hand : Option ChunkId) (d : Depot) : Prop where
  allocated : d.allocated = d.chunks.size
  capacity : ∀ c < d.chunks.size, (d.chunk c).capacity = d.capacity
  rentals : d.rentals = #[]
  shares : d.shares = #[]
  unseated : Unseated d
  referenced : ∀ c < d.chunks.size, some c ≠ hand → d.references c ≠ 0

theorem unseated_modifyWriter {f : Writer → Writer} (h : Unseated d)
    (hf : ∀ s, (f s).collector = s.collector ∧ ((f s).chunk = s.chunk ∨ (f s).chunk = none)) :
    Unseated (d.modifyWriter w f) := by
  intro v r hv hr
  by_cases hvw : v = w
  · subst hvw
    rw [writer?_modifyWriter, Option.map_eq_some_iff] at hv
    obtain ⟨s, hs, rfl⟩ := hv
    obtain ⟨hcollector, hchunk⟩ := hf s
    have hnone := h v s hs (hcollector ▸ hr)
    rcases hchunk with hchunk | hchunk
    · rw [hchunk, hnone]
    · exact hchunk
  · rw [writer?_modifyWriter_of_ne hvw] at hv
    exact h v r hv hr

namespace Kept

theorem ofCapacity (n : Nat) : Kept none (Depot.ofCapacity n) where
  allocated := rfl
  capacity c hc := absurd hc (Nat.not_lt_zero c)
  rentals := rfl
  shares := rfl
  unseated w s hw := absurd hw (by simp [writer?, Depot.ofCapacity])
  referenced c hc := absurd hc (Nat.not_lt_zero c)

/-- References may come, and a chunk may be taken in hand. -/
theorem mono (h : Kept hand d) (hstock : SameStock d d') (hunseated : Unseated d')
    (hrefs : ∀ x, some x ≠ hand' → some x ≠ hand ∧ d.references x ≤ d'.references x) :
    Kept hand' d' where
  allocated := by rw [hstock.allocated, hstock.chunks, h.allocated]
  capacity c hc := by
    rw [chunk, hstock.chunks, ← chunk, hstock.capacity]
    exact h.capacity c (hstock.chunks ▸ hc)
  rentals := hstock.rentals.trans h.rentals
  shares := hstock.shares.trans h.shares
  unseated := hunseated
  referenced c hc hne := by
    obtain ⟨hhand, hle⟩ := hrefs c hne
    have hpos := h.referenced c (hstock.chunks ▸ hc) hhand
    omega

/-- Bookkeeping loses no chunk. -/
theorem alike (h : Kept hand d) (ha : Alike d d') : Kept hand d' := by
  refine h.mono ⟨ha.capacity, ha.chunks, ha.allocated, ha.rentals, ha.shares⟩ ?_
    fun x hx => ⟨hx, Nat.le_of_eq (ha.references x).symm⟩
  intro w s' hw' hs
  obtain ⟨s, hw, hcore⟩ := ha.writer? hw'
  have hcollector : s.collector = s'.collector := by simpa using congrArg Writer.collector hcore
  have hchunk : s.chunk = s'.chunk := by simpa using congrArg Writer.chunk hcore
  rw [← hchunk]
  exact h.unseated w s hw (hcollector.trans hs)

/-- A note loses no chunk. -/
theorem note (h : Kept hand d) (n : Notice) : Kept hand (d.note n) :=
  h.mono ⟨rfl, rfl, rfl, rfl, rfl⟩ h.unseated fun _ hx => ⟨hx, Nat.le_refl _⟩

/-- A chunk in hand that a ledger has is not lost. -/
theorem putDown (h : Kept (some c) d) (hc : 1 ≤ d.ledgered c) : Kept none d := by
  refine { h with referenced := fun x hx _ => ?_ }
  by_cases hxc : x = c
  · rw [hxc, references_eq]
    omega
  · exact h.referenced x hx (by simpa using hxc)

/-- A chunk that is written stays in stock. -/
theorem modifyChunk (h : Kept hand d) {f : Chunk → Chunk}
    (hf : ∀ ch, (f ch).capacity = ch.capacity) : Kept hand (d.modifyChunk c f) where
  allocated := by
    show d.allocated = (d.chunks.modify c f).size
    rw [Array.size_modify, h.allocated]
  capacity x hx := by
    have hlt : x < d.chunks.size := by simpa [Depot.modifyChunk] using hx
    by_cases hxc : x = c
    · subst hxc
      rw [chunk_modifyChunk hlt, hf]
      exact h.capacity x hlt
    · rw [chunk_modifyChunk_of_ne hxc]
      exact h.capacity x hlt
  rentals := h.rentals
  shares := h.shares
  unseated := h.unseated
  referenced x hx hne := h.referenced x (by simpa [Depot.modifyChunk] using hx) hne

/-- **A chunk in hand may be offered.** -/
theorem giveBack (h : Kept (some c) d) (hc : c < d.chunks.size) : Kept none (d.giveBack c).2 := by
  have hstock : (d.giveBack c).2.allocated = d.allocated ∧
      (d.giveBack c).2.chunks.size = d.chunks.size ∧
      ∀ x < d.chunks.size, ((d.giveBack c).2.chunk x).capacity = (d.chunk x).capacity := by
    unfold Depot.giveBack
    split
    · refine ⟨rfl, Array.size_modify, fun x hx => ?_⟩
      have hreset := (h.modifyChunk (c := c) (f := Chunk.reset) fun _ => rfl).capacity x
        (by simpa [Depot.modifyChunk] using hx)
      exact hreset.trans (h.capacity x hx).symm
    · exact ⟨rfl, rfl, fun _ _ => rfl⟩
  obtain ⟨hallocated, hsize, hcapacity⟩ := hstock
  refine ⟨by rw [hallocated, hsize, h.allocated], fun x hx => ?_, ?_, ?_, ?_, fun x hx _ => ?_⟩
  · rw [hsize] at hx
    rw [hcapacity x hx, giveBack_capacity, h.capacity x hx]
  · rw [giveBack_rentals, h.rentals]
  · rw [giveBack_shares, h.shares]
  · intro w s hw
    rw [writer?, giveBack_writers, ← writer?] at hw
    exact h.unseated w s hw
  · rw [hsize] at hx
    by_cases hxc : x = c
    · subst hxc
      exact references_giveBack_self (h.capacity x hx)
    · have hpos := h.referenced x hx (by simpa using hxc)
      have hle := references_giveBack d c x
      omega

/-! ## Ledgers -/

/-- An entry that leaves a ledger leaves its chunk in hand. -/
theorem unload (h : Kept none d) {f : Collector → Collector}
    (hf : ∀ x ≠ c, (d.collector k).ledger.countP (·.chunk == x) ≤
      (f (d.collector k)).ledger.countP (·.chunk == x)) :
    Kept (some c) (d.modifyCollector k f) :=
  h.mono ⟨rfl, rfl, rfl, rfl, rfl⟩ h.unseated fun x hx =>
    ⟨by simp, references_modifyCollector (hf x fun heq => hx (congrArg some heq))⟩

/-- A chunk that is entered is no longer in hand. -/
theorem enter (h : Kept (some c) d) (hk : k < d.collectors.size) :
    Kept none (d.modifyCollector k (·.enter c)) := by
  have hkept : Kept (some c) (d.modifyCollector k (·.enter c)) :=
    h.mono ⟨rfl, rfl, rfl, rfl, rfl⟩ h.unseated fun x hx =>
      ⟨hx, references_modifyCollector (by simp [Collector.enter])⟩
  have hin : (d.modifyCollector k (·.enter c)).Ledgers k c := by
    refine ⟨⟨c, true⟩, ?_, rfl⟩
    rw [collector_modifyCollector hk]
    exact List.mem_append_right _ (List.mem_singleton.mpr rfl)
  exact hkept.putDown (ledgered_pos hin)

/-- **A chunk is taken in hand**; if it was made for it, none is free. -/
theorem take (h : Kept none d) (hpos : 0 < d.capacity) : Kept (some d.take.1) d.take.2 ∧
    (d.take.2.allocated = d.allocated ∨ d.take.2.free = []) := by
  unfold Depot.take
  split
  · next c rest hfree =>
    refine ⟨h.mono ⟨rfl, rfl, rfl, rfl, rfl⟩ h.unseated fun x hx => ⟨by simp, ?_⟩, .inl rfl⟩
    have hne : ¬ c = x := fun heq => hx (congrArg some heq.symm)
    refine Nat.le_trans ?_ (Nat.le_of_eq (references_withFree d rest x).symm)
    rw [references_eq d x, hfree, List.count_cons_of_ne hne]
  · next hfree =>
    refine ⟨⟨?_, fun x hx => ?_, h.rentals, h.shares, h.unseated, fun x hx hne => ?_⟩, .inr hfree⟩
    · show d.allocated + 1 = (d.chunks.push _).size
      rw [Array.size_push, h.allocated]
    · have hx : x < (d.chunks.push (.ofCapacity d.capacity)).size := hx
      rw [Array.size_push] at hx
      show ((d.chunks.push (.ofCapacity d.capacity))[x]?.getD default).capacity = d.capacity
      rw [Array.getElem?_push]
      split
      · exact Nat.max_eq_left hpos
      · exact h.capacity x (by omega)
    · have hx : x < (d.chunks.push (.ofCapacity d.capacity)).size := hx
      rw [Array.size_push] at hx
      have hlt : x < d.chunks.size := by
        have hne : x ≠ d.chunks.size := fun heq => hne (congrArg some heq)
        omega
      exact h.referenced x hlt (by simp)

/-- **A chunk goes from the free list to a ledger**, or is made for it. -/
theorem enterChunk (h : Kept none d) (hpos : 0 < d.capacity) (hk : k < d.collectors.size) :
    Kept none (d.enterChunk k).2 ∧
      ((d.enterChunk k).2.allocated = d.allocated ∨ (d.enterChunk k).2.free = []) := by
  obtain ⟨htaken, hmade⟩ := h.take hpos
  exact ⟨htaken.enter (by rwa [take_collectors]), hmade⟩

theorem evict (h : Kept none d) (howned : Owned d) (hevict : d.evictOldest? k = some d') :
    Kept none d' := by
  obtain ⟨c, pre, post, hledger, -, rfl⟩ := evictOldest?_eq_some.mp hevict
  have hc : c < d.chunks.size :=
    howned.lt_size_of_ledgers (k := k) ⟨⟨c, false⟩, by rw [hledger]; simp, rfl⟩
  have hunloaded : Kept (some c)
      (d.modifyCollector k (·.giveUp (pre ++ post) (d.chunk c).size)) := by
    refine h.unload fun x hx => ?_
    simp [Collector.giveUp, hledger, Ne.symm hx]
  exact (hunloaded.note _).giveBack hc

/-- A chunk in hand that is marked idle stays in its ledger. -/
theorem markIdle (h : Kept (some c) d) (hin : d.Ledgers k c) : Kept none (d.markIdle k c) := by
  have hmarked : Kept (some c) (d.markIdle k c) := by
    refine h.mono ⟨rfl, rfl, rfl, rfl, rfl⟩ h.unseated fun x hx =>
      ⟨hx, references_modifyCollector (Nat.le_of_eq ?_)⟩
    have hcount := congrArg (List.countP (· == x))
      (Collector.map_chunk_markIdle c (d.collector k).ledger)
    simpa only [List.countP_map, Function.comp_def] using hcount.symm
  exact hmarked.putDown (ledgered_pos (ledgers_markIdle.mpr hin))

/-! ## Writers -/

/-- A writer that lets go of a chunk in an open session leaves it in the
ledger; in a closed one it hands it back. -/
theorem letGo (h : Kept none d) (howned : Owned d) (hw : d.writer? w = some s)
    (hseat : ∀ c, s.chunk = some c → (d.collector k).closed = false → d.Ledgers k c) :
    Kept none (d.letGo w k) := by
  cases hc : s.chunk with
  | none =>
    have hsame : d.letGo w k = d := by simp [Depot.letGo, hw, hc]
    rwa [hsame]
  | some c =>
    have hletGo : d.letGo w k =
        (d.modifyWriter w fun s => { s with chunk := none }).releaseChunk k c := by
      simp [Depot.letGo, hw, hc]
    have hparted : Kept (some c) (d.modifyWriter w fun s => { s with chunk := none }) := by
      refine h.mono ⟨rfl, rfl, rfl, rfl, rfl⟩
        (unseated_modifyWriter h.unseated fun _ => ⟨rfl, .inr rfl⟩) fun x hx => ⟨by simp, ?_⟩
      refine references_modifyWriter fun r hr hrx => ?_
      rw [hw, Option.some.injEq] at hr
      rw [← hr, hc] at hrx
      exact absurd hrx.symm hx
    rw [hletGo]
    unfold Depot.releaseChunk
    split
    · exact hparted.giveBack (howned.lt_size_of_writer? hw hc)
    · next hopen =>
      have hopen : (d.collector k).closed = false := by
        rw [Bool.not_eq_true] at hopen
        exact hopen
      exact hparted.markIdle (hseat c hc hopen)

/-- A writer without a chunk takes up what it has entered. -/
theorem hold (h : Kept none d) (hpos : 0 < d.capacity) (hk : k < d.collectors.size)
    (hw : d.writer? w = some s) (hs : s.collector = some k) (hc : s.chunk = none) :
    Kept none (d.hold w k) := by
  refine (h.enterChunk hpos hk).1.mono ⟨rfl, rfl, rfl, rfl, rfl⟩ ?_ fun x hx => ⟨hx, ?_⟩
  · intro v r hv hr
    by_cases hvw : v = w
    · subst hvw
      rw [writer?_hold hw, Option.some.injEq] at hv
      rw [← hv] at hr
      exact absurd (hs.symm.trans hr) (by simp)
    · have hv : (d.hold w k).writer? v = some r := hv
      rw [writer?_hold_of_ne hvw] at hv
      exact h.unseated v r hv hr
  · refine references_modifyWriter fun r hr hrx => ?_
    rw [writer?, enterChunk_writers, ← writer?, hw, Option.some.injEq] at hr
    rw [← hr, hc] at hrx
    exact absurd hrx (by simp)

theorem vacate (h : Kept none d) (hw : d.writer? w = some s) (hs : s.chunk = none) :
    Kept none (d.vacate w) := by
  refine h.mono ⟨rfl, rfl, rfl, rfl, rfl⟩ ?_ fun x hx => ⟨hx, references_vacate hw hs⟩
  intro v r hv hr
  by_cases hvw : v = w
  · subst hvw
    rw [writer?_vacate] at hv
    exact absurd hv (by simp)
  · rw [writer?_vacate_of_ne hvw] at hv
    exact h.unseated v r hv hr

end Kept

end Depot

end EventTrace
