import EventTrace.Proofs.Depot.Bookkeeping
/-!
# Depot — what a freeze copies and what it leaves

A freeze copies the chunks of one ledger in their order, leaving the empty
ones out, and empties that ledger; other ledgers, writers and rentals are as
they were. A chunk is offered only after its entry has left, so the chunks
still to be copied are all referred to, and no offer touches them.
-/

namespace EventTrace

namespace Depot

variable {d d' : Depot} {c x : ChunkId} {k j : CollectorId}

/-- The events of a session chunk by chunk, the oldest chunk first. -/
def contents (d : Depot) (k : CollectorId) : List (List Event) :=
  (d.collector k).ledger.map fun entry => (d.chunk entry.chunk).events.toList

/-- One entry leaves its ledger and its chunk is offered. -/
def unload (d : Depot) (k : CollectorId) (entry : LedgerEntry) (rest : List LedgerEntry) :
    Depot :=
  ((d.modifyCollector k fun s => { s with ledger := rest }).giveBack entry.chunk).2

/-- Nothing but one ledger and the free list is touched. -/
structure Unloaded (k : CollectorId) (rest : List LedgerEntry) (d d' : Depot) : Prop where
  collector : d'.collector k = { d.collector k with ledger := rest }
  others : ∀ j ≠ k, d'.collector j = d.collector j
  size : d'.collectors.size = d.collectors.size
  writers : d'.writers = d.writers
  rentals : d'.rentals = d.rentals
  evictions : ∀ j, d'.evictions j = d.evictions j
  chunk : ∀ j c, d'.Ledgers j c → d'.chunk c = d.chunk c

theorem Unloaded.trans {e : Depot} {rest later : List LedgerEntry} (h : Unloaded k rest d d')
    (h' : Unloaded k later d' e) (hsub : ∀ entry ∈ later, entry ∈ rest) :
    Unloaded k later d e where
  collector := by rw [h'.collector, h.collector]
  others j hj := (h'.others j hj).trans (h.others j hj)
  size := h'.size.trans h.size
  writers := h'.writers.trans h.writers
  rentals := h'.rentals.trans h.rentals
  evictions j := (h'.evictions j).trans (h.evictions j)
  chunk j c hc := by
    refine (h'.chunk j c hc).trans (h.chunk j c ?_)
    obtain ⟨entry, hmem, hentry⟩ := hc
    refine ⟨entry, ?_, hentry⟩
    by_cases hj : j = k
    · subst hj
      rw [h'.collector] at hmem
      rw [h.collector]
      exact hsub entry hmem
    · rwa [h'.others j hj] at hmem

theorem unloaded_unload {entry : LedgerEntry} {rest : List LedgerEntry}
    (hledger : (d.collector k).ledger = entry :: rest) :
    Unloaded k rest d (d.unload k entry rest) := by
  have hk : k < d.collectors.size :=
    lt_size_of_ledgers (c := entry.chunk) ⟨entry, by rw [hledger]; simp, rfl⟩
  refine ⟨?_, ?_, ?_, giveBack_writers _ _, giveBack_rentals _ _, ?_, ?_⟩
  · rw [unload, Depot.collector, giveBack_collectors, ← Depot.collector,
      collector_modifyCollector hk]
  · intro j hj
    rw [unload, Depot.collector, giveBack_collectors, ← Depot.collector,
      collector_modifyCollector_of_ne hj]
  · rw [unload, giveBack_collectors]
    exact Array.size_modify
  · intro j
    rw [unload, Depot.evictions, giveBack_journal]
    rfl
  · intro j c hc
    refine chunk_giveBack ?_
    have hin : (d.modifyCollector k fun s => { s with ledger := rest }).Ledgers j c := by
      rwa [Ledgers, unload, Depot.collector, giveBack_collectors, ← Depot.collector] at hc
    have := ledgered_pos hin
    rw [references_eq]
    omega

/-- **What freezing copies**: the chunks with events, in order. -/
theorem freezeEntries_spec {entries : List LedgerEntry} (frozen : Frozen)
    (hledger : (d.collector k).ledger = entries) :
    (freezeEntries k entries frozen d).1.chunks =
        frozen.chunks ++ (d.contents k).filter (!·.isEmpty) ∧
      Unloaded k [] d (freezeEntries k entries frozen d).2 := by
  induction entries generalizing d frozen with
  | nil =>
    refine ⟨by simp [freezeEntries, contents, hledger], ⟨?_, fun _ _ => rfl, rfl, rfl, rfl,
      fun _ => rfl, fun _ _ _ => rfl⟩⟩
    show d.collector k = { d.collector k with ledger := [] }
    rw [← hledger]
  | cons entry rest ih =>
    have hunload := unloaded_unload hledger
    have hrest : ((d.unload k entry rest).collector k).ledger = rest := by rw [hunload.collector]
    have hcontents : d.contents k =
        (d.chunk entry.chunk).events.toList :: (d.unload k entry rest).contents k := by
      rw [contents, contents, hledger, hrest, List.map_cons]
      congr 1
      refine List.map_congr_left ?_
      intro e he
      rw [hunload.chunk k e.chunk ⟨e, by rwa [hrest], rfl⟩]
    have hstep : ∀ chunks recycled,
        (freezeEntries k rest ⟨chunks, recycled⟩ (d.unload k entry rest)).1.chunks =
            chunks ++ ((d.unload k entry rest).contents k).filter (!·.isEmpty) ∧
          Unloaded k [] d (freezeEntries k rest ⟨chunks, recycled⟩ (d.unload k entry rest)).2 :=
      fun chunks recycled => ⟨(ih _ hrest).1, hunload.trans (ih _ hrest).2 fun _ h =>
        absurd h List.not_mem_nil⟩
    have hchunks : (if (d.chunk entry.chunk).isEmpty then frozen.chunks
        else frozen.chunks ++ [(d.chunk entry.chunk).events.toList]) ++
          ((d.unload k entry rest).contents k).filter (!·.isEmpty) =
        frozen.chunks ++ (d.contents k).filter (!·.isEmpty) := by
      rw [hcontents]
      by_cases hempty : (d.chunk entry.chunk).events = #[]
      · simp [Chunk.isEmpty, Chunk.size, hempty]
      · simp [Chunk.isEmpty, Chunk.size, hempty]
    unfold freezeEntries
    dsimp only
    cases hback : (d.modifyCollector k fun s => { s with ledger := rest }).giveBack entry.chunk with
    | mk taken d₁ =>
      obtain rfl : d.unload k entry rest = d₁ := by rw [unload, hback]
      cases taken
      all_goals
        refine ⟨?_, (hstep _ _).2⟩
        rw [← hchunks]
        exact (hstep _ _).1

/-- **A freeze copies a session's chunks with events** and empties its
ledger. -/
theorem freeze_spec (d : Depot) (k : CollectorId) :
    (d.freeze k).1 = (d.contents k).filter (!·.isEmpty) ∧ Unloaded k [] d (d.freeze k).2 := by
  obtain ⟨hchunks, hunloaded⟩ := freezeEntries_spec (d := d) (k := k) {} rfl
  refine ⟨by simpa [freeze] using hchunks, ?_⟩
  exact { hunloaded with
    evictions := fun j => ((Alike.note fun _ => rfl).evictions j).trans (hunloaded.evictions j) }

/-- The frozen events are those that were held. -/
theorem flatten_freeze (d : Depot) (k : CollectorId) :
    (d.freeze k).1.flatten = (d.contents k).flatten := by
  rw [(freeze_spec d k).1, List.flatten_filter_not_isEmpty]

/-- A freeze leaves writers where they are. -/
theorem writer?_freeze (d : Depot) (k : CollectorId) (w : WriterId) :
    (d.freeze k).2.writer? w = d.writer? w := by
  rw [writer?, (freeze_spec d k).2.writers, ← writer?]

end Depot

end EventTrace
