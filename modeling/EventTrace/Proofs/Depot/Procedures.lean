import EventTrace.Proofs.Depot.References
/-!
# Depot — what the smallest procedures do

A session's procedures are built from few moves. This file says what the
smallest of them do: which entry of a ledger is given up and which is marked
idle, what a take and a return touch, what an eviction comes to
(`evictOldest?_eq_some`) and what each does to ledgers. No later proof
unfolds them again.
-/

namespace EventTrace

/-! ## Ledgers as lists -/

namespace Collector

variable {c : ChunkId} {ledger rest : List LedgerEntry}

/-- **What is given up is the first idle entry.** -/
theorem oldestIdle?_eq_some :
    oldestIdle? ledger = some (c, rest) ↔
      ∃ pre post, ledger = pre ++ ⟨c, false⟩ :: post ∧ (∀ e ∈ pre, e.active = true) ∧
        rest = pre ++ post := by
  induction ledger generalizing rest with
  | nil => simp [oldestIdle?]
  | cons entry ledger ih =>
    obtain ⟨x, active⟩ := entry
    cases active with
    | false =>
      simp only [oldestIdle?, Bool.false_eq_true, if_false, Option.some.injEq, Prod.mk.injEq]
      constructor
      · rintro ⟨rfl, rfl⟩
        exact ⟨[], ledger, rfl, by simp, rfl⟩
      · rintro ⟨pre, post, hsplit, hpre, rfl⟩
        cases pre with
        | nil =>
          simp only [List.nil_append, List.cons.injEq, LedgerEntry.mk.injEq] at hsplit
          exact ⟨hsplit.1.1, hsplit.2⟩
        | cons e pre =>
          simp only [List.cons_append, List.cons.injEq] at hsplit
          have := hpre e List.mem_cons_self
          rw [← hsplit.1] at this
          exact absurd this Bool.false_ne_true
    | true =>
      simp only [oldestIdle?, if_true, Option.map_eq_some_iff, Prod.mk.injEq]
      constructor
      · rintro ⟨⟨y, tail⟩, htail, rfl, rfl⟩
        obtain ⟨pre, post, rfl, hpre, rfl⟩ := ih.mp htail
        exact ⟨⟨x, true⟩ :: pre, post, rfl, by simpa using hpre, rfl⟩
      · rintro ⟨pre, post, hsplit, hpre, rfl⟩
        cases pre with
        | nil => simp at hsplit
        | cons e pre =>
          simp only [List.cons_append, List.cons.injEq] at hsplit
          obtain ⟨rfl, rfl⟩ := hsplit
          exact ⟨(c, pre ++ post),
            ih.mpr ⟨pre, post, rfl, fun e he => hpre e (by simp [he]), rfl⟩, rfl, rfl⟩

/-- Marking an entry idle moves no chunk. -/
theorem map_chunk_markIdle (c : ChunkId) (ledger : List LedgerEntry) :
    (markIdle c ledger).map LedgerEntry.chunk = ledger.map LedgerEntry.chunk := by
  induction ledger with
  | nil => rfl
  | cons entry ledger ih =>
    unfold markIdle
    split
    · rfl
    · rw [List.map_cons, ih, List.map_cons]

/-- An entry after a chunk was marked idle was there before, or is the
marked one. -/
theorem mem_of_mem_markIdle {entry : LedgerEntry} (h : entry ∈ markIdle c ledger) :
    entry ∈ ledger ∨ entry = ⟨c, false⟩ := by
  induction ledger with
  | nil => exact Or.inl h
  | cons e ledger ih =>
    unfold markIdle at h
    split at h
    · next hc =>
      rcases List.mem_cons.mp h with rfl | h
      · exact Or.inr (by rw [← hc])
      · exact Or.inl (List.mem_cons_of_mem _ h)
    · rcases List.mem_cons.mp h with rfl | h
      · exact Or.inl List.mem_cons_self
      · exact (ih h).imp (List.mem_cons_of_mem _) id

/-- Entries of other chunks stay as they are. -/
theorem mem_markIdle_of_ne {entry : LedgerEntry} (h : entry ∈ ledger) (hne : entry.chunk ≠ c) :
    entry ∈ markIdle c ledger := by
  induction ledger with
  | nil => exact h
  | cons e ledger ih =>
    unfold markIdle
    split
    · next hc =>
      rcases List.mem_cons.mp h with rfl | h
      · exact absurd hc hne
      · exact List.mem_cons_of_mem _ h
    · rcases List.mem_cons.mp h with rfl | h
      · exact List.mem_cons_self
      · exact List.mem_cons_of_mem _ (ih h)

/-- Where a chunk has one entry, it is idle once it is marked. -/
theorem not_mem_markIdle (h : (ledger.map LedgerEntry.chunk).Nodup) :
    ⟨c, true⟩ ∉ markIdle c ledger := by
  induction ledger with
  | nil => exact List.not_mem_nil
  | cons e ledger ih =>
    rw [List.map_cons, List.nodup_cons] at h
    unfold markIdle
    split
    · next hc =>
      intro hmem
      rcases List.mem_cons.mp hmem with heq | hmem
      · exact Bool.false_ne_true (congrArg LedgerEntry.active heq).symm
      · exact h.1 (List.mem_map.mpr ⟨⟨c, true⟩, hmem, hc.symm⟩)
    · next hc =>
      intro hmem
      rcases List.mem_cons.mp hmem with heq | hmem
      · exact hc (congrArg LedgerEntry.chunk heq).symm
      · exact ih h.2 hmem

end Collector

namespace Depot

variable {d d' e : Depot} {c x : ChunkId} {k j : CollectorId} {w v : WriterId}

/-! ## The free list -/

@[simp] theorem take_capacity (d : Depot) : d.take.2.capacity = d.capacity := by
  unfold take; split <;> rfl

@[simp] theorem take_collectors (d : Depot) : d.take.2.collectors = d.collectors := by
  unfold take; split <;> rfl

@[simp] theorem take_rentals (d : Depot) : d.take.2.rentals = d.rentals := by
  unfold take; split <;> rfl

@[simp] theorem take_shares (d : Depot) : d.take.2.shares = d.shares := by
  unfold take; split <;> rfl

@[simp] theorem take_writers (d : Depot) : d.take.2.writers = d.writers := by
  unfold take; split <;> rfl

@[simp] theorem take_links (d : Depot) : d.take.2.links = d.links := by
  unfold take; split <;> rfl

/-- A chunk made is empty, as is one that is not there: taking writes
nothing. -/
theorem take_events (d : Depot) (x : ChunkId) :
    (d.take.2.chunk x).events = (d.chunk x).events := by
  unfold take
  split
  · rfl
  · simp only [note, chunk, Array.getElem?_push]
    split
    · next h => simp [h, default, Chunk.ofCapacity]
    · rfl

/-- A return leaves everything but the free list and the chunk alone. -/
theorem giveBack_eq (d : Depot) (c : ChunkId) :
    (d.giveBack c).2 =
      { d with chunks := (d.giveBack c).2.chunks, free := (d.giveBack c).2.free } := by
  unfold giveBack; split <;> rfl

@[simp] theorem giveBack_capacity (d : Depot) (c : ChunkId) :
    (d.giveBack c).2.capacity = d.capacity := by rw [giveBack_eq]

@[simp] theorem giveBack_allocated (d : Depot) (c : ChunkId) :
    (d.giveBack c).2.allocated = d.allocated := by rw [giveBack_eq]

@[simp] theorem giveBack_collectors (d : Depot) (c : ChunkId) :
    (d.giveBack c).2.collectors = d.collectors := by rw [giveBack_eq]

@[simp] theorem giveBack_rentals (d : Depot) (c : ChunkId) :
    (d.giveBack c).2.rentals = d.rentals := by rw [giveBack_eq]

@[simp] theorem giveBack_shares (d : Depot) (c : ChunkId) :
    (d.giveBack c).2.shares = d.shares := by rw [giveBack_eq]

@[simp] theorem giveBack_writers (d : Depot) (c : ChunkId) :
    (d.giveBack c).2.writers = d.writers := by rw [giveBack_eq]

@[simp] theorem giveBack_journal (d : Depot) (c : ChunkId) :
    (d.giveBack c).2.journal = d.journal := by rw [giveBack_eq]

/-- **A return touches no chunk someone refers to.** -/
theorem chunk_giveBack (h : d.references x ≠ 0) : (d.giveBack c).2.chunk x = d.chunk x := by
  unfold giveBack
  split
  · next hc => exact chunk_modifyChunk_of_ne (by rintro rfl; exact h hc.2)
  · rfl

/-! ## Eviction -/

/-- **An eviction gives up the first idle chunk.** It leaves the ledger, its
events go on record, and it is offered to the free list. -/
theorem evictOldest?_eq_some :
    d.evictOldest? k = some d' ↔
      ∃ c pre post, (d.collector k).ledger = pre ++ ⟨c, false⟩ :: post ∧
        (∀ e ∈ pre, e.active = true) ∧
        d' = (((d.modifyCollector k (·.giveUp (pre ++ post) (d.chunk c).size)).note
          (.chunkEvicted k (d.chunk c).events)).giveBack c).2 := by
  unfold evictOldest?
  cases hidle : Collector.oldestIdle? (d.collector k).ledger with
  | none =>
    simp only [reduceCtorEq, false_iff]
    rintro ⟨c, pre, post, hsplit, hpre, -⟩
    have := Collector.oldestIdle?_eq_some.mpr ⟨pre, post, hsplit, hpre, rfl⟩
    rw [hidle] at this
    exact absurd this (by simp)
  | some p =>
    obtain ⟨c, rest⟩ := p
    obtain ⟨pre, post, hsplit, hpre, rfl⟩ := Collector.oldestIdle?_eq_some.mp hidle
    simp only [Option.some.injEq]
    constructor
    · rintro rfl
      exact ⟨c, pre, post, hsplit, hpre, rfl⟩
    · rintro ⟨x, pre', post', hsplit', hpre', rfl⟩
      have h := Collector.oldestIdle?_eq_some.mpr ⟨pre', post', hsplit', hpre', rfl⟩
      rw [hidle, Option.some.injEq, Prod.mk.injEq] at h
      rw [h.1, h.2]

/-- What an eviction does to collectors: one entry of one ledger leaves. -/
theorem collector_evictOldest? (h : d.evictOldest? k = some d') :
    ∃ c pre post, (d.collector k).ledger = pre ++ ⟨c, false⟩ :: post ∧
      (∀ e ∈ pre, e.active = true) ∧
      d'.collector k = (d.collector k).giveUp (pre ++ post) (d.chunk c).size ∧
      ∀ j ≠ k, d'.collector j = d.collector j := by
  obtain ⟨c, pre, post, hledger, hpre, rfl⟩ := evictOldest?_eq_some.mp h
  have hk : k < d.collectors.size :=
    lt_size_of_ledgers (c := c) ⟨⟨c, false⟩, by rw [hledger]; simp, rfl⟩
  have hsame : ∀ j, (((d.modifyCollector k (·.giveUp (pre ++ post) (d.chunk c).size)).note
      (.chunkEvicted k (d.chunk c).events)).giveBack c).2.collector j =
        (d.modifyCollector k (·.giveUp (pre ++ post) (d.chunk c).size)).collector j := by
    intro j
    rw [collector, giveBack_collectors]
    rfl
  refine ⟨c, pre, post, hledger, hpre, ?_, ?_⟩
  · rw [hsame, collector_modifyCollector hk]
  · intro j hj
    rw [hsame, collector_modifyCollector_of_ne hj]

/-- An eviction only takes from ledgers. -/
theorem sublist_evictOldest? (h : d.evictOldest? k = some d') (j : CollectorId) :
    (d'.collector j).ledger.Sublist (d.collector j).ledger := by
  obtain ⟨c, pre, post, hledger, -, hgiven, hothers⟩ := collector_evictOldest? h
  by_cases hj : j = k
  · rw [hj, hgiven, hledger]
    exact (List.sublist_cons_self _ post).append_left pre
  · rw [hothers j hj]

theorem ledgers_of_evictOldest? (h : d.evictOldest? k = some d') (hin : d'.Ledgers j c) :
    d.Ledgers j c := by
  obtain ⟨entry, hmem, rfl⟩ := hin
  exact ⟨entry, (sublist_evictOldest? h j).subset hmem, rfl⟩

/-- An eviction takes no active entry. -/
theorem mem_evictOldest?_of_active (h : d.evictOldest? k = some d')
    (hmem : ⟨c, true⟩ ∈ (d.collector j).ledger) : ⟨c, true⟩ ∈ (d'.collector j).ledger := by
  obtain ⟨x, pre, post, hledger, -, hgiven, hothers⟩ := collector_evictOldest? h
  by_cases hj : j = k
  · subst hj
    rw [hledger] at hmem
    rw [hgiven]
    simpa [Collector.giveUp] using hmem
  · rwa [hothers j hj]

theorem rentals_evictOldest? (h : d.evictOldest? k = some d') : d'.rentals = d.rentals := by
  obtain ⟨c, pre, post, -, -, rfl⟩ := evictOldest?_eq_some.mp h
  exact giveBack_rentals _ c

theorem writers_evictOldest? (h : d.evictOldest? k = some d') : d'.writers = d.writers := by
  obtain ⟨c, pre, post, -, -, rfl⟩ := evictOldest?_eq_some.mp h
  exact giveBack_writers _ c

theorem size_evictOldest? (h : d.evictOldest? k = some d') :
    d'.collectors.size = d.collectors.size := by
  obtain ⟨c, pre, post, -, -, rfl⟩ := evictOldest?_eq_some.mp h
  rw [giveBack_collectors]
  exact Array.size_modify

/-! ## Entries that come and change -/

/-- The chunk entered goes to the end of one ledger. -/
theorem ledger_enterChunk (hk : k < d.collectors.size) :
    ((d.enterChunk k).2.collector k).ledger =
      (d.collector k).ledger ++ [⟨(d.enterChunk k).1, true⟩] := by
  have hk' : k < d.take.2.collectors.size := by rwa [take_collectors]
  have hsame : d.take.2.collector k = d.collector k := by simp [collector]
  unfold enterChunk
  rw [collector_modifyCollector hk', hsame]
  rfl

theorem collector_enterChunk_of_ne (h : j ≠ k) :
    (d.enterChunk k).2.collector j = d.collector j := by
  unfold enterChunk
  rw [collector_modifyCollector_of_ne h]
  simp [collector]

/-- An entry after a chunk was entered was there before, or is the new
one. -/
theorem mem_ledger_enterChunk {entry : LedgerEntry}
    (h : entry ∈ ((d.enterChunk k).2.collector j).ledger) :
    entry ∈ (d.collector j).ledger ∨ (j = k ∧ entry = ⟨(d.enterChunk k).1, true⟩) := by
  by_cases hj : j = k
  · rcases Nat.lt_or_ge k d.collectors.size with hk | hk
    · rw [hj, ledger_enterChunk hk, List.mem_append, List.mem_singleton] at h
      exact h.imp (by rw [hj]; exact id) fun h => ⟨hj, h⟩
    · rw [collector_of_ge (by rw [hj]; simpa [enterChunk, modifyCollector] using hk)] at h
      exact absurd h List.not_mem_nil
  · rw [collector_enterChunk_of_ne hj] at h
    exact .inl h

theorem mem_enterChunk_of_mem {entry : LedgerEntry} (h : entry ∈ (d.collector j).ledger) :
    entry ∈ ((d.enterChunk k).2.collector j).ledger := by
  by_cases hj : j = k
  · subst hj
    rw [ledger_enterChunk (lt_size_of_ledgers (ledgers_of_mem h))]
    exact List.mem_append_left _ h
  · rwa [collector_enterChunk_of_ne hj]

theorem closed_enterChunk (d : Depot) (k j : CollectorId) :
    ((d.enterChunk k).2.collector j).closed = (d.collector j).closed := by
  have hsame : d.take.2.collector j = d.collector j := by simp [collector]
  rw [← hsame]
  refine congr_modifyCollector Collector.closed ?_ j
  intro _
  rfl

theorem size_enterChunk (d : Depot) (k : CollectorId) :
    (d.enterChunk k).2.collectors.size = d.collectors.size := by
  simp [enterChunk, modifyCollector]

theorem ledger_markIdle (d : Depot) (k : CollectorId) (c : ChunkId) :
    ((d.markIdle k c).collector k).ledger = Collector.markIdle c (d.collector k).ledger := by
  unfold markIdle
  rcases Nat.lt_or_ge k d.collectors.size with hk | hk
  · rw [collector_modifyCollector hk]
  · rw [modifyCollector_of_ge hk, collector_of_ge hk]
    rfl

theorem collector_markIdle_of_ne (h : j ≠ k) : (d.markIdle k c).collector j = d.collector j :=
  collector_modifyCollector_of_ne h

theorem closed_markIdle (d : Depot) (k j : CollectorId) (c : ChunkId) :
    ((d.markIdle k c).collector j).closed = (d.collector j).closed := by
  refine congr_modifyCollector Collector.closed ?_ j
  intro _
  rfl

/-- Marking idle moves no chunk. -/
theorem map_chunk_markIdle (d : Depot) (k j : CollectorId) (c : ChunkId) :
    ((d.markIdle k c).collector j).ledger.map LedgerEntry.chunk =
      (d.collector j).ledger.map LedgerEntry.chunk := by
  by_cases hj : j = k
  · rw [hj, ledger_markIdle, Collector.map_chunk_markIdle]
  · rw [collector_markIdle_of_ne hj]

/-- A chunk is in a ledger if it is among the ledger's chunks. -/
theorem ledgers_iff : d.Ledgers j x ↔ x ∈ (d.collector j).ledger.map LedgerEntry.chunk :=
  List.mem_map.symm

theorem ledgers_markIdle : (d.markIdle k c).Ledgers j x ↔ d.Ledgers j x := by
  rw [ledgers_iff, ledgers_iff, map_chunk_markIdle]

/-- An entry after a chunk was marked idle was there before, or is the
marked one. -/
theorem mem_ledger_markIdle {entry : LedgerEntry}
    (h : entry ∈ ((d.markIdle k c).collector j).ledger) :
    entry ∈ (d.collector j).ledger ∨ (j = k ∧ entry = ⟨c, false⟩) := by
  by_cases hj : j = k
  · subst hj
    rw [ledger_markIdle] at h
    exact (Collector.mem_of_mem_markIdle h).imp id fun h => ⟨rfl, h⟩
  · rw [collector_markIdle_of_ne hj] at h
    exact .inl h

/-- Entries of other chunks stay as they are. -/
theorem mem_markIdle_of_mem {entry : LedgerEntry} (h : entry ∈ (d.collector j).ledger)
    (hne : entry.chunk ≠ c) : entry ∈ ((d.markIdle k c).collector j).ledger := by
  by_cases hj : j = k
  · subst hj
    rw [ledger_markIdle]
    exact Collector.mem_markIdle_of_ne h hne
  · rwa [collector_markIdle_of_ne hj]

/-! ## Releases

A release marks idle while its session is open, and else gives back what the
ledgers do not show. -/

theorem map_chunk_releaseChunk (d : Depot) (k j : CollectorId) (c : ChunkId) :
    ((d.releaseChunk k c).collector j).ledger.map LedgerEntry.chunk =
      (d.collector j).ledger.map LedgerEntry.chunk := by
  unfold releaseChunk
  split
  · rw [collector, giveBack_collectors, ← collector]
  · exact map_chunk_markIdle d k j c

theorem ledgers_releaseChunk : (d.releaseChunk k c).Ledgers j x ↔ d.Ledgers j x := by
  rw [ledgers_iff, ledgers_iff, map_chunk_releaseChunk]

theorem mem_ledger_releaseChunk {entry : LedgerEntry}
    (h : entry ∈ ((d.releaseChunk k c).collector j).ledger) :
    entry ∈ (d.collector j).ledger ∨ (j = k ∧ entry = ⟨c, false⟩) := by
  unfold releaseChunk at h
  split at h
  · rw [collector, giveBack_collectors, ← collector] at h
    exact .inl h
  · exact mem_ledger_markIdle h

theorem mem_releaseChunk_of_mem {entry : LedgerEntry} (h : entry ∈ (d.collector j).ledger)
    (hne : entry.chunk ≠ c) : entry ∈ ((d.releaseChunk k c).collector j).ledger := by
  unfold releaseChunk
  split
  · rwa [collector, giveBack_collectors, ← collector]
  · exact mem_markIdle_of_mem h hne

/-- A release of an open session leaves the chunk's entry idle. -/
theorem not_mem_releaseChunk (hnodup : ((d.collector k).ledger.map LedgerEntry.chunk).Nodup)
    (hopen : (d.collector k).closed = false) :
    ⟨c, true⟩ ∉ ((d.releaseChunk k c).collector k).ledger := by
  rw [releaseChunk, if_neg (by rw [hopen]; exact Bool.false_ne_true), ledger_markIdle]
  exact Collector.not_mem_markIdle hnodup

end Depot

end EventTrace
