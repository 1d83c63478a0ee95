import EventTrace.Proofs.Depot.Procedures
/-!
# Depot — what bookkeeping leaves alone

Most of what a procedure does to a depot is bookkeeping: losses are counted,
overflows are noted, threads are named, close flags are raised. None of it
moves a chunk. `Alike` relates two depots that differ in bookkeeping only,
and whatever is said of chunks carries over from one to the other; `Agree`
asks for the same tally of losses and the same writers besides. What was
evicted is read off the journal.
-/

namespace EventTrace

/-! ## Evictions on record -/

/-- The events of a chunk that a session gave up, if that is what happened. -/
def Notice.eviction? (k : CollectorId) : Notice → Option (List Event)
  | .chunkEvicted j events => if j = k then some events.toList else none
  | _ => none

/-- The chunks a session gave up, the first one first. -/
def Depot.evictions (d : Depot) (k : CollectorId) : List (List Event) :=
  d.journal.toList.filterMap (Notice.eviction? k)

/-! ## Views without bookkeeping -/

/-- A collector without its losses and names. -/
def Collector.core (s : Collector) : Collector :=
  { s with losses := {}, writers := [], threadNames := ∅ }

@[simp] theorem Collector.core_options (s : Collector) : s.core.options = s.options := rfl

@[simp] theorem Collector.core_closed (s : Collector) : s.core.closed = s.closed := rfl

@[simp] theorem Collector.core_eventCount (s : Collector) :
    s.core.eventCount = s.eventCount := rfl

@[simp] theorem Collector.core_ledger (s : Collector) : s.core.ledger = s.ledger := rfl

/-- How many events a session turned away or gave up. -/
def Collector.tallied (s : Collector) : Nat :=
  s.losses.droppedEvents + s.losses.sampledOut + s.losses.rateLimited

/-- A writer without what its tests remember. -/
def Writer.core (s : Writer) : Writer := { s with screen := default }

@[simp] theorem Writer.core_collector (s : Writer) : s.core.collector = s.collector := rfl

@[simp] theorem Writer.core_chunk (s : Writer) : s.core.chunk = s.chunk := rfl

@[simp] theorem Writer.core_thread (s : Writer) : s.core.thread = s.thread := rfl

@[simp] theorem Writer.core_sequence (s : Writer) : s.core.sequence = s.sequence := rfl

namespace Depot

variable {d d' e : Depot} {c x : ChunkId} {k j : CollectorId} {w v : WriterId}

/-- Two depots that differ in bookkeeping only. -/
structure Alike (d d' : Depot) : Prop where
  capacity : d'.capacity = d.capacity
  chunks : d'.chunks = d.chunks
  free : d'.free = d.free
  allocated : d'.allocated = d.allocated
  rentals : d'.rentals = d.rentals
  shares : d'.shares = d.shares
  collectors : d'.collectors.map Collector.core = d.collectors.map Collector.core
  writers : d'.writers.map (Option.map Writer.core) = d.writers.map (Option.map Writer.core)
  evictions : ∀ k, d'.evictions k = d.evictions k

/-- Two depots that differ in bookkeeping only, with one tally of losses and
the same writers. -/
structure Agree (d d' : Depot) : Prop extends Alike d d' where
  sameWriters : d'.writers = d.writers
  tallied : ∀ j, (d'.collector j).tallied = (d.collector j).tallied

namespace Alike

theorem refl (d : Depot) : Alike d d := ⟨rfl, rfl, rfl, rfl, rfl, rfl, rfl, rfl, fun _ => rfl⟩

theorem trans (h : Alike d d') (h' : Alike d' e) : Alike d e where
  capacity := h'.capacity.trans h.capacity
  chunks := h'.chunks.trans h.chunks
  free := h'.free.trans h.free
  allocated := h'.allocated.trans h.allocated
  rentals := h'.rentals.trans h.rentals
  shares := h'.shares.trans h.shares
  collectors := h'.collectors.trans h.collectors
  writers := h'.writers.trans h.writers
  evictions k := (h'.evictions k).trans (h.evictions k)

theorem symm (h : Alike d d') : Alike d' d where
  capacity := h.capacity.symm
  chunks := h.chunks.symm
  free := h.free.symm
  allocated := h.allocated.symm
  rentals := h.rentals.symm
  shares := h.shares.symm
  collectors := h.collectors.symm
  writers := h.writers.symm
  evictions k := (h.evictions k).symm

theorem core (h : Alike d d') (j : CollectorId) :
    (d'.collector j).core = (d.collector j).core := by
  have hj := congrArg (fun xs => xs[j]?.getD (default : Collector).core) h.collectors
  simpa only [Array.getElem?_map, Option.getD_map, collector] using hj

theorem ledger (h : Alike d d') (j : CollectorId) :
    (d'.collector j).ledger = (d.collector j).ledger := by
  simpa using congrArg Collector.ledger (h.core j)

theorem closed (h : Alike d d') (j : CollectorId) :
    (d'.collector j).closed = (d.collector j).closed := by
  simpa using congrArg Collector.closed (h.core j)

theorem eventCount (h : Alike d d') (j : CollectorId) :
    (d'.collector j).eventCount = (d.collector j).eventCount := by
  simpa using congrArg Collector.eventCount (h.core j)

theorem options (h : Alike d d') (j : CollectorId) :
    (d'.collector j).options = (d.collector j).options := by
  simpa using congrArg Collector.options (h.core j)

theorem size (h : Alike d d') : d'.collectors.size = d.collectors.size := by
  have hsize := congrArg Array.size h.collectors
  simpa only [Array.size_map] using hsize

theorem chunk (h : Alike d d') (c : ChunkId) : d'.chunk c = d.chunk c := by
  rw [Depot.chunk, Depot.chunk, h.chunks]

theorem ledgered (h : Alike d d') (c : ChunkId) : d'.ledgered c = d.ledgered c := by
  have hsum := congrArg (fun xs : Array Collector =>
    (xs.toList.map fun s => s.ledger.countP (·.chunk == c)).sum) h.collectors
  simpa [Depot.ledgered, Function.comp_def] using hsum

theorem filling (h : Alike d d') (c : ChunkId) : d'.filling c = d.filling c := by
  have hcount := congrArg
    (fun xs : Array (Option Writer) => xs.countP fun s => s.any (·.chunk == some c)) h.writers
  simp only [Array.countP_map] at hcount
  have hview : ((fun s : Option Writer => s.any (·.chunk == some c)) ∘ Option.map Writer.core) =
      fun s => s.any (·.chunk == some c) := by
    funext s
    cases s <;> rfl
  rwa [hview] at hcount

theorem writable (h : Alike d d') (c : ChunkId) : d'.writable c = d.writable c := by
  rw [Depot.writable, Depot.writable, h.rentals, h.filling]

theorem references (h : Alike d d') (c : ChunkId) : d'.references c = d.references c := by
  rw [references_eq, references_eq, h.free, h.ledgered, h.writable, h.shares]

theorem ledgers (h : Alike d d') : d'.Ledgers j c ↔ d.Ledgers j c := by
  rw [Ledgers, Ledgers, h.ledger]

/-- Writers are the same but for their tests. -/
theorem core_writer? (h : Alike d d') (w : WriterId) :
    (d'.writer? w).map Writer.core = (d.writer? w).map Writer.core := by
  rw [Depot.writer?, Depot.writer?]
  have hcore := congrArg (fun xs => xs[w]?.join) h.writers
  simpa only [Array.getElem?_map, Option.join_map_eq_map_join] using hcore

/-- A writer is there before and after, the same but for its tests. -/
theorem writer? (h : Alike d d') {s' : Writer} (hw : d'.writer? w = some s') :
    ∃ s, d.writer? w = some s ∧ s.core = s'.core := by
  have hcore := h.core_writer? w
  rw [hw, Option.map_some] at hcore
  exact Option.map_eq_some_iff.mp hcore.symm

/-! ## Moves that only keep the books -/

/-- A note of anything but an eviction. -/
theorem note {n : Notice} (hn : ∀ k, n.eviction? k = none) : Alike d (d.note n) where
  capacity := rfl
  chunks := rfl
  free := rfl
  allocated := rfl
  rentals := rfl
  shares := rfl
  collectors := rfl
  writers := rfl
  evictions k := by simp [Depot.evictions, Depot.note, hn]

/-- A change of a collector's losses and names. -/
theorem modifyCollector {f : Collector → Collector} (hf : ∀ s, (f s).core = s.core) :
    Alike d (d.modifyCollector k f) :=
  { refl d with collectors := map_modify_of_eq hf d.collectors k }

/-- A change of what a writer's tests remember. -/
theorem modifyWriter {f : Writer → Writer} (hf : ∀ s, (f s).core = s.core) :
    Alike d (d.modifyWriter w f) :=
  { refl d with
    writers := map_modify_of_eq (fun s => by cases s <;> simp [hf]) d.writers w }

end Alike

namespace Agree

theorem refl (d : Depot) : Agree d d := ⟨.refl d, rfl, fun _ => rfl⟩

theorem trans (h : Agree d d') (h' : Agree d' e) : Agree d e :=
  ⟨h.toAlike.trans h'.toAlike, h'.sameWriters.trans h.sameWriters,
    fun j => (h'.tallied j).trans (h.tallied j)⟩

theorem writer?_eq (h : Agree d d') (w : WriterId) : d'.writer? w = d.writer? w := by
  rw [Depot.writer?, Depot.writer?, h.sameWriters]

theorem note {n : Notice} (hn : ∀ k, n.eviction? k = none) : Agree d (d.note n) :=
  ⟨.note hn, rfl, fun _ => rfl⟩

theorem modifyCollector {f : Collector → Collector} (hf : ∀ s, (f s).core = s.core)
    (ht : ∀ s, (f s).tallied = s.tallied) : Agree d (d.modifyCollector k f) := by
  exact ⟨.modifyCollector hf, rfl, congr_modifyCollector Collector.tallied ht⟩

/-- What one writer does next does not tell the two depots apart. -/
theorem modifyWriter_congr (h : Agree d d') (w : WriterId) (f : Writer → Writer) :
    Agree (d.modifyWriter w f) (d'.modifyWriter w f) where
  capacity := h.capacity
  chunks := h.chunks
  free := h.free
  allocated := h.allocated
  rentals := h.rentals
  shares := h.shares
  collectors := h.collectors
  writers := by simp only [Depot.modifyWriter, h.sameWriters]
  evictions := h.evictions
  sameWriters := by simp only [Depot.modifyWriter, h.sameWriters]
  tallied := h.tallied

/-- What is written next does not tell the two depots apart. -/
theorem modifyChunk_congr (h : Agree d d') (c : ChunkId) (f : Chunk → Chunk) :
    Agree (d.modifyChunk c f) (d'.modifyChunk c f) where
  capacity := h.capacity
  chunks := by simp only [Depot.modifyChunk, h.chunks]
  free := h.free
  allocated := h.allocated
  rentals := h.rentals
  shares := h.shares
  collectors := h.collectors
  writers := h.writers
  evictions := h.evictions
  sameWriters := h.sameWriters
  tallied := h.tallied

/-- Close flags are bookkeeping. -/
theorem links (d : Depot) (flags : Array Bool) : Agree d { d with links := flags } :=
  ⟨⟨rfl, rfl, rfl, rfl, rfl, rfl, rfl, rfl, fun _ => rfl⟩, rfl, fun _ => rfl⟩

end Agree

/-! ## Procedures that only keep the books -/

theorem agree_signal (d : Depot) (k : CollectorId) (reason : Reason) :
    Agree d (d.signal k reason) := by
  unfold signal
  split
  · exact .refl d
  · refine Agree.trans (.modifyCollector ?_ ?_) (.note fun _ => rfl)
    · exact fun _ => rfl
    · exact fun _ => rfl

theorem agree_nameThread (d : Depot) (k : CollectorId) (thread : Int) (name : String) :
    Agree d (d.nameThread k thread name) := by
  unfold nameThread
  split
  · exact .refl d
  · exact .modifyCollector (fun _ => rfl) (fun _ => rfl)

theorem agree_registerLink (d : Depot) (k : CollectorId) (l : LinkId) :
    Agree d (d.registerLink k l) := .modifyCollector (fun _ => rfl) (fun _ => rfl)

theorem agree_closeLink (d : Depot) (l : LinkId) : Agree d (d.closeLink l) := .links d _

/-- Raising close flags touches nothing else. -/
theorem foldl_closeLink (links : List LinkId) (d : Depot) :
    ∃ flags, links.foldl closeLink d = { d with links := flags } := by
  induction links generalizing d with
  | nil => exact ⟨d.links, rfl⟩
  | cons l links ih =>
    obtain ⟨flags, heq⟩ := ih (d.closeLink l)
    exact ⟨flags, heq⟩

theorem agree_closeWriters (d : Depot) (k : CollectorId) : Agree d (d.closeWriters k).2 := by
  obtain ⟨flags, heq⟩ := foldl_closeLink (d.collector k).writers d
  unfold closeWriters
  dsimp only
  rw [heq]
  exact (Agree.links d flags).trans (.modifyCollector (fun _ => rfl) (fun _ => rfl))

/-! ## Losses -/

/-- Two depots that differ in bookkeeping only, the second with one event
more counted as lost, by whatever cause. -/
structure Refuses (k : CollectorId) (d d' : Depot) : Prop extends Alike d d' where
  sameWriters : d'.writers = d.writers
  tallied : ∀ j, (d'.collector j).tallied =
    (d.collector j).tallied + if j = k ∧ k < d.collectors.size then 1 else 0

theorem Refuses.then_agree (h : Refuses k d d') (h' : Agree d' e) : Refuses k d e :=
  ⟨h.toAlike.trans h'.toAlike, h'.sameWriters.trans h.sameWriters,
    fun j => (h'.tallied j).trans (h.tallied j)⟩

theorem Refuses.modifyCollector {f : Collector → Collector} (hf : ∀ s, (f s).core = s.core)
    (ht : ∀ s, (f s).tallied = s.tallied + 1) : Refuses k d (d.modifyCollector k f) := by
  refine ⟨.modifyCollector hf, rfl, ?_⟩
  intro j
  rcases Nat.lt_or_ge k d.collectors.size with hk | hk
  · by_cases hj : j = k
    · rw [hj, collector_modifyCollector hk, ht, if_pos ⟨rfl, hk⟩]
    · rw [collector_modifyCollector_of_ne hj, if_neg fun h => hj h.1, Nat.add_zero]
  · rw [modifyCollector_of_ge hk, if_neg fun h => absurd h.2 (Nat.not_lt.mpr hk), Nat.add_zero]

/-- **Each cause counts one event, once.** -/
theorem refuses_recordDropped (d : Depot) (k : CollectorId) (reason : Reason) :
    Refuses k d (d.recordDropped k reason) := by
  refine Refuses.then_agree (.modifyCollector ?_ ?_) (agree_signal _ k reason)
  · exact fun _ => rfl
  · intro s
    simp only [Collector.tallied]
    omega

theorem refuses_recordSampledOut (d : Depot) (k : CollectorId) :
    Refuses k d (d.recordSampledOut k) := by
  refine .modifyCollector (fun _ => rfl) ?_
  intro s
  simp only [Collector.tallied]
  omega

theorem refuses_recordRateLimited (d : Depot) (k : CollectorId) :
    Refuses k d (d.recordRateLimited k) := by
  refine Refuses.then_agree (.modifyCollector ?_ ?_) (agree_signal _ k .rateLimit)
  · exact fun _ => rfl
  · intro s
    simp only [Collector.tallied]
    omega

end Depot

end EventTrace
