import EventTrace.Proofs.Depot.Freezing
import EventTrace.Proofs.Depot.Operations
/-!
# Depot — what a session holds

A session holds the events of the chunks in its ledger. A move leaves them as
they are, gives up one chunk of them, or enters an empty chunk after them;
`Move.change` says which, with what happens to the counts meanwhile. Only an
accepted event adds to them (`contents_accept`).
-/

namespace EventTrace

namespace Depot

variable {d d' e : Depot} {c x : ChunkId} {k j : CollectorId} {w v : WriterId} {s : Writer}

/-! ## What does not change contents -/

/-- Contents are those of the same chunks with the same events. -/
theorem contents_congr
    (hledger : (d'.collector k).ledger.map LedgerEntry.chunk =
      (d.collector k).ledger.map LedgerEntry.chunk)
    (hevents : ∀ c, d.Ledgers k c → (d'.chunk c).events = (d.chunk c).events) :
    d'.contents k = d.contents k := by
  have hmap : ∀ e : Depot, e.contents k =
      ((e.collector k).ledger.map LedgerEntry.chunk).map fun c => (e.chunk c).events.toList := by
    intro e
    rw [contents, List.map_map]
    rfl
  rw [hmap, hmap, hledger]
  refine List.map_congr_left ?_
  intro c hc
  obtain ⟨entry, hmem, hentry⟩ := List.mem_map.mp hc
  rw [hevents c ⟨entry, hmem, hentry⟩]

/-- A freeze of one session leaves the others what they hold. -/
theorem contents_freeze (d : Depot) (hj : j ≠ k) : (d.freeze k).2.contents j = d.contents j := by
  obtain ⟨-, hfrozen⟩ := freeze_spec d k
  refine contents_congr (by rw [hfrozen.others j hj]) ?_
  intro c hc
  rw [hfrozen.chunk j c (by rwa [Ledgers, hfrozen.others j hj])]

/-- What a session holds, has given up and has counted is as it was. -/
structure Same (k : CollectorId) (d d' : Depot) : Prop where
  contents : d'.contents k = d.contents k
  evictions : d'.evictions k = d.evictions k
  eventCount : (d'.collector k).eventCount = (d.collector k).eventCount
  tallied : (d'.collector k).tallied = (d.collector k).tallied

theorem Alike.contents (h : Alike d d') (k : CollectorId) : d'.contents k = d.contents k :=
  contents_congr (by rw [h.ledger]) fun c _ => by rw [h.chunk]

theorem Agree.same (h : Agree d d') (k : CollectorId) : Same k d d' where
  contents := h.toAlike.contents k
  evictions := h.evictions k
  eventCount := h.eventCount k
  tallied := h.tallied k

/-- A chunk that is still in a ledger after something was offered has its
events. -/
theorem chunk_giveBack_of_ledgers (h : d.Ledgers j x) (c : ChunkId) :
    (d.giveBack c).2.chunk x = d.chunk x := by
  refine chunk_giveBack ?_
  have := ledgered_pos h
  rw [references_eq]
  omega

theorem same_giveBack (d : Depot) (c : ChunkId) (k : CollectorId) : Same k d (d.giveBack c).2 where
  contents := contents_congr (by simp [collector]) fun x hx => by
    rw [chunk_giveBack_of_ledgers hx]
  evictions := by rw [Depot.evictions, giveBack_journal, ← Depot.evictions]
  eventCount := by simp [collector]
  tallied := by simp [collector]

theorem same_modifyWriter (d : Depot) (w : WriterId) (f : Writer → Writer) (k : CollectorId) :
    Same k d (d.modifyWriter w f) := ⟨rfl, rfl, rfl, rfl⟩

/-- Only the ledger of a collector changes where a chunk is marked idle. -/
theorem collector_markIdle (d : Depot) (k : CollectorId) (c : ChunkId) (j : CollectorId) :
    (d.markIdle k c).collector j =
      { d.collector j with ledger := ((d.markIdle k c).collector j).ledger } := by
  unfold markIdle
  rcases collector_modifyCollector_cases d k j _ with hsame | hchanged
  · rw [hsame]
  · rw [hchanged]

theorem same_markIdle (d : Depot) (j : CollectorId) (c : ChunkId) (k : CollectorId) :
    Same k d (d.markIdle j c) where
  contents := contents_congr (map_chunk_markIdle d j k c) fun _ _ => rfl
  evictions := rfl
  eventCount := by rw [collector_markIdle]
  tallied := by rw [collector_markIdle]; rfl

theorem Same.trans (h : Same k d d') (h' : Same k d' e) : Same k d e where
  contents := h'.contents.trans h.contents
  evictions := h'.evictions.trans h.evictions
  eventCount := h'.eventCount.trans h.eventCount
  tallied := h'.tallied.trans h.tallied

theorem same_letGo (d : Depot) (w : WriterId) (j k : CollectorId) : Same k d (d.letGo w j) := by
  unfold letGo
  split
  · exact ⟨rfl, rfl, rfl, rfl⟩
  · next c hc =>
    have hparted := same_modifyWriter d w (fun s => { s with chunk := none }) k
    unfold releaseChunk
    split
    · exact hparted.trans (same_giveBack _ c k)
    · exact hparted.trans (same_markIdle _ j c k)

theorem same_close (d : Depot) (j k : CollectorId) : Same k d (d.close j) := by
  have hcollector : (d.close j).collector k =
      { d.collector k with closed := ((d.close j).collector k).closed } := by
    unfold close
    rcases collector_modifyCollector_cases d j k _ with hsame | hchanged
    · rw [hsame]
    · rw [hchanged]
  refine ⟨contents_congr (by rw [hcollector]) fun _ _ => rfl, rfl, by rw [hcollector], ?_⟩
  rw [hcollector]
  rfl

/-! ## Changes -/

/-- What becomes of what a session holds. -/
inductive Change (k : CollectorId) (d d' : Depot) : Prop
  | same : Same k d d' → Change k d d'
  /-- The oldest idle chunk was given up. -/
  | gaveUp (c : ChunkId) (pre post : List LedgerEntry) :
      (d.collector k).ledger = pre ++ ⟨c, false⟩ :: post → (∀ e ∈ pre, e.active = true) →
      (d.collector k).closed = false →
      (d'.collector k).ledger = pre ++ post →
      d'.contents k = (pre ++ post).map (fun e => (d.chunk e.chunk).events.toList) →
      d'.evictions k = d.evictions k ++ [(d.chunk c).events.toList] →
      (d'.collector k).eventCount =
        (d.collector k).eventCount - UInt64.ofNat (d.chunk c).events.size →
      (d'.collector k).tallied = (d.collector k).tallied + (d.chunk c).events.size →
      Change k d d'
  /-- A chunk without events was entered. -/
  | entered : d'.contents k = d.contents k ++ [[]] → d'.evictions k = d.evictions k →
      (d'.collector k).eventCount = (d.collector k).eventCount →
      (d'.collector k).tallied = (d.collector k).tallied → Change k d d'

/-- No other session notices an eviction. -/
theorem same_evict (hevict : d.evictOldest? j = some d') (hk : k ≠ j) : Same k d d' := by
  obtain ⟨-, -, -, -, -, -, hothers⟩ := collector_evictOldest? hevict
  obtain ⟨c, pre, post, -, -, hd'⟩ := evictOldest?_eq_some.mp hevict
  have hback := same_giveBack ((d.modifyCollector j (·.giveUp (pre ++ post) (d.chunk c).size)).note
    (.chunkEvicted j (d.chunk c).events)) c k
  rw [← hd'] at hback
  refine ⟨hback.contents.trans ?_, hback.evictions.trans ?_, by rw [hothers k hk],
    by rw [hothers k hk]⟩
  · show List.map _ ((d.modifyCollector j _).collector k).ledger = _
    rw [collector_modifyCollector_of_ne hk]
    rfl
  · simp [Depot.evictions, note, modifyCollector, Notice.eviction?, Ne.symm hk]

/-- What the session itself is left with. -/
theorem gaveUp_evict (hevict : d.evictOldest? k = some d') :
    ∃ c pre post, (d.collector k).ledger = pre ++ ⟨c, false⟩ :: post ∧
      (∀ e ∈ pre, e.active = true) ∧
      d'.collector k = (d.collector k).giveUp (pre ++ post) (d.chunk c).size ∧
      d'.contents k = (pre ++ post).map (fun e => (d.chunk e.chunk).events.toList) ∧
      d'.evictions k = d.evictions k ++ [(d.chunk c).events.toList] := by
  obtain ⟨c, pre, post, hledger, hpre, hd'⟩ := evictOldest?_eq_some.mp hevict
  have hk : k < d.collectors.size :=
    lt_size_of_ledgers (c := c) ⟨⟨c, false⟩, by rw [hledger]; simp, rfl⟩
  have hback := same_giveBack ((d.modifyCollector k (·.giveUp (pre ++ post) (d.chunk c).size)).note
    (.chunkEvicted k (d.chunk c).events)) c k
  rw [← hd'] at hback
  refine ⟨c, pre, post, hledger, hpre, ?_, ?_, ?_⟩
  · rw [hd', collector, giveBack_collectors]
    exact collector_modifyCollector hk
  · refine hback.contents.trans ?_
    show List.map _ ((d.modifyCollector k _).collector k).ledger = _
    rw [collector_modifyCollector hk]
    rfl
  · refine hback.evictions.trans ?_
    simp [Depot.evictions, note, modifyCollector, Notice.eviction?]

/-- An eviction gives up a chunk of one session, and no other notices. -/
theorem change_evict (hopen : (d.collector j).closed = false)
    (hevict : d.evictOldest? j = some d') : Change k d d' := by
  by_cases hk : k = j
  · subst hk
    obtain ⟨c, pre, post, hledger, hpre, hgiven, hcontents, hevictions⟩ := gaveUp_evict hevict
    refine .gaveUp c pre post hledger hpre hopen ?_ hcontents hevictions ?_ ?_
    · rw [hgiven]
      rfl
    · rw [hgiven]
      rfl
    · rw [hgiven]
      simp only [Collector.tallied, Collector.giveUp, Chunk.size]
      omega
  · exact .same (same_evict hevict hk)

/-- Entering a chunk changes only the ledger and the count of chunks. -/
theorem collector_enterChunk (d : Depot) (k j : CollectorId) :
    (d.enterChunk k).2.collector j =
      { d.collector j with
        ledger := ((d.enterChunk k).2.collector j).ledger
        chunkCount := ((d.enterChunk k).2.collector j).chunkCount } := by
  by_cases hj : j = k
  · subst hj
    have hsame : d.take.2.collector j = d.collector j := by simp [collector]
    have hentered : (d.enterChunk j).2 = d.take.2.modifyCollector j (·.enter d.take.1) := rfl
    rw [hentered]
    rcases Nat.lt_or_ge j d.take.2.collectors.size with hk | hk
    · rw [collector_modifyCollector hk, hsame]
      rfl
    · rw [modifyCollector_of_ge hk, hsame]
  · rw [collector_enterChunk_of_ne hj]

theorem evictions_enterChunk (d : Depot) (k j : CollectorId) :
    (d.enterChunk k).2.evictions j = d.evictions j := by
  unfold enterChunk take
  split
  · rfl
  · simp [Depot.evictions, note, modifyCollector, Notice.eviction?]

/-- The chunk that a session enters is empty when it is taken. -/
theorem Owned.events_fresh (h : Owned d) (k : CollectorId) :
    (d.chunk (d.enterChunk k).1).events = #[] := by
  have hsame : ((d.enterChunk k).2.chunk (d.enterChunk k).1).events =
      (d.chunk (d.enterChunk k).1).events := take_events d _
  rw [← hsame, (h.enterChunk k).2.events]

/-- Taking a chunk up enters an empty one. -/
theorem Owned.change_hold (h : Owned d) (w : WriterId) (j k : CollectorId) :
    Change k d (d.hold w j) := by
  have hevents : ∀ c, ((d.hold w j).chunk c).events = (d.chunk c).events := take_events d
  have hcount : ((d.hold w j).collector k).eventCount = (d.collector k).eventCount := by
    show ((d.enterChunk j).2.collector k).eventCount = _
    rw [collector_enterChunk]
  have htallied : ((d.hold w j).collector k).tallied = (d.collector k).tallied := by
    show ((d.enterChunk j).2.collector k).tallied = _
    rw [collector_enterChunk]
    rfl
  have hevictions := evictions_enterChunk d j k
  have hmap : ∀ l : List LedgerEntry,
      (l.map fun e => ((d.hold w j).chunk e.chunk).events.toList) =
        l.map fun e => (d.chunk e.chunk).events.toList :=
    fun l => List.map_congr_left fun e _ => by rw [hevents]
  by_cases hk : k = j ∧ j < d.collectors.size
  · obtain ⟨rfl, hlt⟩ := hk
    refine .entered ?_ hevictions hcount htallied
    show ((d.enterChunk k).2.collector k).ledger.map _ = _
    rw [ledger_enterChunk hlt, hmap, List.map_append, List.map_singleton, contents,
      h.events_fresh]
  · have hsame : ((d.enterChunk j).2.collector k).ledger = (d.collector k).ledger := by
      by_cases hkj : k = j
      · have hge : d.collectors.size ≤ j := Nat.le_of_not_lt fun hlt => hk ⟨hkj, hlt⟩
        rw [hkj, collector_of_ge hge, collector_of_ge (by rwa [size_enterChunk])]
      · rw [collector_enterChunk_of_ne hkj]
    refine .same ⟨?_, hevictions, hcount, htallied⟩
    show ((d.enterChunk j).2.collector k).ledger.map _ = _
    rw [hsame, hmap, contents]

/-- **What a move does to what a session holds.** -/
theorem Owned.change (h : Owned d) (hm : Move d d') (k : CollectorId) : Change k d d' := by
  cases hm with
  | turn j ht =>
    cases ht with
    | keep hagree => exact .same (hagree.same k)
    | close => exact .same (same_close d j k)
    | evict hopen hevict => exact change_evict hopen hevict
  | hold => exact h.change_hold _ _ k
  | letGo => exact .same (same_letGo d _ _ k)
  | leave => exact .same (same_modifyWriter d _ _ k)
  | vacate => exact .same ⟨rfl, rfl, rfl, rfl⟩

/-! ## Accepted events -/

theorem eventCount_accept (hk : k < d.collectors.size) (w : WriterId) (c : ChunkId)
    (event : Event) : ((d.accept k w c event).collector k).eventCount =
      (d.collector k).eventCount + 1 := by
  show ((d.modifyCollector k Collector.countEvent).collector k).eventCount = _
  rw [collector_modifyCollector hk]
  rfl

theorem collector_accept_of_ne (h : j ≠ k) (w : WriterId) (c : ChunkId) (event : Event) :
    (d.accept k w c event).collector j = d.collector j :=
  collector_modifyCollector_of_ne h

/-- Only the count of a collector changes where an event is accepted. -/
theorem collector_accept (d : Depot) (k j : CollectorId) (w : WriterId) (c : ChunkId)
    (event : Event) : (d.accept k w c event).collector j =
      { d.collector j with eventCount := ((d.accept k w c event).collector j).eventCount } := by
  by_cases hj : j = k
  · subst hj
    show (d.modifyCollector j Collector.countEvent).collector j =
      { d.collector j with
        eventCount := ((d.modifyCollector j Collector.countEvent).collector j).eventCount }
    rcases Nat.lt_or_ge j d.collectors.size with hk | hk
    · rw [collector_modifyCollector hk]
      rfl
    · rw [modifyCollector_of_ge hk]
  · rw [collector_accept_of_ne hj]

theorem ledger_accept (d : Depot) (k j : CollectorId) (w : WriterId) (c : ChunkId)
    (event : Event) : ((d.accept k w c event).collector j).ledger = (d.collector j).ledger := by
  rw [collector_accept]

theorem chunk_accept (hc : c < d.chunks.size) (hfull : (d.chunk c).isFull = false)
    (k : CollectorId) (w : WriterId) (event : Event) :
    ((d.accept k w c event).chunk c).events = (d.chunk c).events.push event := by
  have hpush : (d.accept k w c event).chunk c = (d.chunk c).push event :=
    chunk_modifyChunk (d := (d.modifyCollector k Collector.countEvent).modifyWriter w _) hc
  rw [hpush, Chunk.push, if_neg (by simp [hfull])]

theorem chunk_accept_of_ne (h : x ≠ c) (k : CollectorId) (w : WriterId) (event : Event) :
    (d.accept k w c event).chunk x = d.chunk x :=
  chunk_modifyChunk_of_ne (d := (d.modifyCollector k Collector.countEvent).modifyWriter w _) h

/-- **An accepted event goes to the end of one chunk** of one ledger. -/
theorem Owned.contents_accept (h : Owned d) {pre post : List LedgerEntry} {active : Bool}
    (hledger : (d.collector j).ledger = pre ++ ⟨c, active⟩ :: post)
    (hfull : (d.chunk c).isFull = false) (k : CollectorId) (w : WriterId) (event : Event) :
    (d.accept k w c event).contents j =
      pre.map (fun e => (d.chunk e.chunk).events.toList) ++
        ((d.chunk c).events.toList ++ [event]) ::
          post.map (fun e => (d.chunk e.chunk).events.toList) := by
  have hsize : c < d.chunks.size :=
    h.lt_size_of_ledgers (k := j) ⟨⟨c, active⟩, by rw [hledger]; simp, rfl⟩
  have hnodup := nodup_ledger h.ledgered_le j
  rw [hledger, List.map_append, List.map_cons, List.nodup_append] at hnodup
  obtain ⟨-, hpost, hapart⟩ := hnodup
  rw [List.nodup_cons] at hpost
  have hsame : ∀ e : LedgerEntry, e.chunk ≠ c →
      ((d.accept k w c event).chunk e.chunk).events.toList =
        (d.chunk e.chunk).events.toList := fun e he => by rw [chunk_accept_of_ne he]
  rw [contents, ledger_accept, hledger, List.map_append, List.map_cons,
    chunk_accept hsize hfull, Array.toList_push]
  congr 1
  · refine List.map_congr_left fun e he => hsame e ?_
    intro heq
    exact hapart e.chunk (List.mem_map_of_mem he) c List.mem_cons_self heq
  · congr 1
    refine List.map_congr_left fun e he => hsame e ?_
    intro heq
    have hmem : e.chunk ∈ post.map LedgerEntry.chunk := List.mem_map_of_mem he
    rw [heq] at hmem
    exact hpost.1 hmem

/-- An accepted event is held once. -/
theorem Owned.length_contents_accept (h : Owned d) (hin : d.Ledgers j c)
    (hfull : (d.chunk c).isFull = false) (k : CollectorId) (w : WriterId) (event : Event) :
    ((d.accept k w c event).contents j).flatten.length =
      (d.contents j).flatten.length + 1 := by
  obtain ⟨entry, hmem, rfl⟩ := hin
  obtain ⟨pre, post, hledger⟩ := List.append_of_mem hmem
  rw [h.contents_accept hledger hfull, contents, hledger]
  simp only [List.map_append, List.map_cons, List.flatten_append, List.flatten_cons,
    List.length_append, List.length_cons, List.length_nil]
  omega

/-- A session without the chunk is not concerned. -/
theorem contents_accept_of_not_ledgers (h : ¬ d.Ledgers j c) (k : CollectorId) (w : WriterId)
    (event : Event) : (d.accept k w c event).contents j = d.contents j := by
  refine contents_congr (by rw [ledger_accept]) ?_
  intro x hx
  have hne : x ≠ c := by
    rintro rfl
    exact h hx
  rw [chunk_accept_of_ne hne]

theorem tallied_accept (d : Depot) (k j : CollectorId) (w : WriterId) (c : ChunkId)
    (event : Event) : ((d.accept k w c event).collector j).tallied =
      (d.collector j).tallied := by
  rw [collector_accept]
  rfl

end Depot

end EventTrace
