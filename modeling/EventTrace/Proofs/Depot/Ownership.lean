import EventTrace.Proofs.Depot.Moves
/-!
# Depot — who owns a chunk

A chunk is on the free list, and then nothing else refers to it and it is
empty, or it is not; it stands in one ledger at most, and one holder at most
can write to it. `Owned` says so by counts, `Owned.exclusive` in words, and
the rest of the file is that each move of the depot keeps it: a reference
let go (`Owned.mono`), one reference made (`Owned.refer`), a chunk taken,
offered, made or written.
-/

namespace EventTrace

namespace Depot

/-- Every chunk is free, empty and referred to by nothing else, or not free;
in one ledger at most; written to by one holder at most. -/
structure Owned (d : Depot) : Prop where
  capacity_pos : 0 < d.capacity
  room : ∀ c, 0 < (d.chunk c).capacity
  unused : ∀ c, d.chunks.size ≤ c → d.references c = 0
  alone : ∀ c ∈ d.free, d.references c = 1
  empty : ∀ c ∈ d.free, (d.chunk c).events = #[] ∧ (d.chunk c).capacity = d.capacity
  ledgered_le : ∀ c, d.ledgered c ≤ 1
  writable_le : ∀ c, d.writable c ≤ 1

namespace Owned

variable {d d' : Depot} {c x : ChunkId} {k j : CollectorId} {w v : WriterId}

theorem ofCapacity (n : Nat) : Owned (Depot.ofCapacity n) where
  capacity_pos := by
    show 0 < max n 1
    omega
  room c := by simp [chunk, Depot.ofCapacity, default, Chunk.ofCapacity]
  unused c _ := by simp [references, entriesOf, Depot.ofCapacity, heldIn]
  alone c hc := absurd hc List.not_mem_nil
  empty c hc := absurd hc List.not_mem_nil
  ledgered_le c := by simp [ledgered, Depot.ofCapacity]
  writable_le c := by simp [writable, filling, Depot.ofCapacity, heldIn]

/-- Whatever is referred to is a chunk of the depot. -/
theorem lt_size (h : Owned d) (hc : d.references c ≠ 0) : c < d.chunks.size := by
  rcases Nat.lt_or_ge c d.chunks.size with hlt | hge
  · exact hlt
  · exact absurd (h.unused c hge) hc

/-- A chunk with a reference besides the free list is not free. -/
theorem not_mem_free (h : Owned d)
    (hc : 1 ≤ d.ledgered c + d.writable c + heldIn d.shares c) : c ∉ d.free := by
  intro hfree
  have := h.alone c hfree
  have := count_free_pos hfree
  rw [references_eq] at *
  omega

/-- Nothing but the free list refers to a free chunk. -/
theorem counts_of_mem_free (h : Owned d) (hc : c ∈ d.free) :
    d.free.count c = 1 ∧ d.ledgered c = 0 ∧ d.writable c = 0 ∧ heldIn d.shares c = 0 := by
  have h1 := h.alone c hc
  have h2 := count_free_pos hc
  rw [references_eq] at h1
  omega

theorem nodup_free (h : Owned d) : d.free.Nodup := by
  rw [List.nodup_iff_count_le_one]
  intro c
  by_cases hc : c ∈ d.free
  · exact Nat.le_of_eq (h.counts_of_mem_free hc).1
  · rw [List.count_eq_zero.mpr hc]
    exact Nat.zero_le _

/-! ## References let go and made -/

/-- Chunks stay owned where free chunks, and what is no chunk yet, gain no
reference, and no chunk is entered or written to twice. -/
theorem of_references (h : Owned d) (hcapacity : d'.capacity = d.capacity)
    (hchunks : d'.chunks = d.chunks) (hfree : d'.free = d.free)
    (hrefs : ∀ c, c ∈ d.free ∨ d.chunks.size ≤ c → d'.references c ≤ d.references c)
    (hl : ∀ c, d'.ledgered c ≤ 1) (hw : ∀ c, d'.writable c ≤ 1) : Owned d' := by
  have hchunk : ∀ c, d'.chunk c = d.chunk c := fun c => by simp [chunk, hchunks]
  refine ⟨by rw [hcapacity]; exact h.capacity_pos, fun c => by rw [hchunk]; exact h.room c,
    ?_, ?_, ?_, hl, hw⟩
  · intro c hc
    rw [hchunks] at hc
    have h1 := h.unused c hc
    have h2 := hrefs c (.inr hc)
    omega
  · intro c hc
    have hcd : c ∈ d.free := hfree ▸ hc
    -- the free list is itself one reference, so none is left for any other holder
    have h1 := h.alone c hcd
    have h2 := hrefs c (.inl hcd)
    have h3 := count_free_pos hc
    have h4 := references_eq d' c
    omega
  · intro c hc
    rw [hchunk, hcapacity]
    exact h.empty c (hfree ▸ hc)

/-- **One reference made, and any let go.** The chunk that gains one must be
a chunk of the depot that is not free, and must not become entered or
written to twice. -/
theorem refer (h : Owned d) (x : ChunkId) (hcapacity : d'.capacity = d.capacity)
    (hchunks : d'.chunks = d.chunks) (hfree : d'.free = d.free) (hx : x ∉ d.free)
    (hsize : x < d.chunks.size) (hxl : d'.ledgered x ≤ 1) (hxw : d'.writable x ≤ 1)
    (hl : ∀ c, c ≠ x → d'.ledgered c ≤ d.ledgered c)
    (hw : ∀ c, c ≠ x → d'.writable c ≤ d.writable c)
    (hs : ∀ c, c ≠ x → heldIn d'.shares c ≤ heldIn d.shares c) : Owned d' := by
  refine h.of_references hcapacity hchunks hfree ?_ ?_ ?_
  · intro c hc
    have hcx : c ≠ x := by
      rintro rfl
      exact hc.elim hx (Nat.not_le.mpr hsize)
    have h1 := hl c hcx
    have h2 := hw c hcx
    have h3 := hs c hcx
    rw [references_eq, references_eq, hfree]
    omega
  · intro c
    by_cases hcx : c = x
    · rwa [hcx]
    · exact Nat.le_trans (hl c hcx) (h.ledgered_le c)
  · intro c
    by_cases hcx : c = x
    · rwa [hcx]
    · exact Nat.le_trans (hw c hcx) (h.writable_le c)

/-- **References let go.** -/
theorem mono (h : Owned d) (hcapacity : d'.capacity = d.capacity) (hchunks : d'.chunks = d.chunks)
    (hfree : d'.free = d.free) (hl : ∀ c, d'.ledgered c ≤ d.ledgered c)
    (hw : ∀ c, d'.writable c ≤ d.writable c)
    (hs : ∀ c, heldIn d'.shares c ≤ heldIn d.shares c) : Owned d' := by
  refine h.of_references hcapacity hchunks hfree ?_
    (fun c => Nat.le_trans (hl c) (h.ledgered_le c))
    fun c => Nat.le_trans (hw c) (h.writable_le c)
  intro c _
  have h1 := hl c
  have h2 := hw c
  have h3 := hs c
  rw [references_eq, references_eq, hfree]
  omega

/-! ## Chunks written, taken, offered and made -/

/-- A chunk that is not free may be written. -/
theorem modifyChunk (h : Owned d) {f : Chunk → Chunk} (hf : ∀ ch, (f ch).capacity = ch.capacity)
    (hx : x ∉ d.free) : Owned (d.modifyChunk x f) := by
  have hroom : ∀ c, ((d.modifyChunk x f).chunk c).capacity = (d.chunk c).capacity := by
    intro c
    by_cases hc : c = x
    · subst hc
      rcases Nat.lt_or_ge c d.chunks.size with hlt | hge
      · rw [chunk_modifyChunk hlt, hf]
      · simp [Depot.modifyChunk, chunk, Nat.not_lt.mpr hge]
    · rw [chunk_modifyChunk_of_ne hc]
  refine ⟨h.capacity_pos, fun c => by rw [hroom]; exact h.room c, ?_,
    h.alone, ?_, h.ledgered_le, h.writable_le⟩
  · intro c hc
    exact h.unused c (by simpa [Depot.modifyChunk] using hc)
  · intro c hc
    rw [chunk_modifyChunk_of_ne (by rintro rfl; exact hx hc)]
    exact h.empty c hc

/-- Bookkeeping changes no reference. -/
theorem alike (h : Owned d) (ha : Alike d d') : Owned d' :=
  h.mono ha.capacity ha.chunks ha.free (fun c => Nat.le_of_eq (ha.ledgered c))
    (fun c => Nat.le_of_eq (ha.writable c)) (fun c => Nat.le_of_eq (by rw [ha.shares]))

/-- A ledger may lose entries and keep its entries' order or not. -/
theorem modifyCollector (h : Owned d) {f : Collector → Collector}
    (hf : ∀ c, (f (d.collector k)).ledger.countP (·.chunk == c) ≤
      (d.collector k).ledger.countP (·.chunk == c)) : Owned (d.modifyCollector k f) := by
  refine h.mono rfl rfl rfl ?_ (fun _ => Nat.le_refl _) (fun _ => Nat.le_refl _)
  intro c
  rcases Nat.lt_or_ge k d.collectors.size with hk | hk
  · have := ledgered_modifyCollector (f := f) (c := c) hk
    have := hf c
    omega
  · exact Nat.le_of_eq (by rw [modifyCollector_of_ge hk])

/-- A chunk of the depot may be offered. -/
theorem giveBack (h : Owned d) (hc : c < d.chunks.size) : Owned (d.giveBack c).2 := by
  unfold Depot.giveBack
  split
  · next hback =>
    obtain ⟨hcapacity, hrefs⟩ := hback
    -- who offers holds the one reference there is, so the list does not
    have hnotfree : c ∉ d.free := by
      intro hmem
      have := h.alone c hmem
      omega
    have hwritten := h.modifyChunk (f := Chunk.reset) (fun _ => rfl) hnotfree
    have hrefs' : ∀ x, references { d.modifyChunk c Chunk.reset with free := c :: d.free } x =
        d.references x + if c == x then 1 else 0 := by
      intro x
      rw [references_withFree, references_eq d x, List.count_cons]
      show d.free.count x + _ + d.ledgered x + d.writable x + heldIn d.shares x = _
      omega
    refine ⟨h.capacity_pos, hwritten.room, ?_, ?_, ?_,
      h.ledgered_le, h.writable_le⟩
    · intro x hx
      simp only [Depot.modifyChunk, Array.size_modify] at hx
      have hne : ¬ c = x := by rintro rfl; exact absurd hc (Nat.not_lt.mpr hx)
      refine (hrefs' x).trans ?_
      rw [h.unused x hx, if_neg (by simpa using hne)]
    · intro x hx
      refine (hrefs' x).trans ?_
      rcases List.mem_cons.mp hx with rfl | hmem
      · rw [hrefs, if_pos (by simp)]
      · have hne : ¬ c = x := by rintro rfl; exact hnotfree hmem
        rw [if_neg (by simpa using hne), h.alone x hmem]
    · intro x hx
      rcases List.mem_cons.mp hx with rfl | hmem
      · have hreset : (d.modifyChunk x Chunk.reset).chunk x = (d.chunk x).reset :=
          chunk_modifyChunk hc
        show ((d.modifyChunk x Chunk.reset).chunk x).events = #[] ∧
          ((d.modifyChunk x Chunk.reset).chunk x).capacity = d.capacity
        rw [hreset]
        exact ⟨rfl, hcapacity⟩
      · exact hwritten.empty x hmem
  · exact h

/-- A new chunk of any capacity is referred to by nothing. -/
theorem pushChunk (h : Owned d) (n : Nat) :
    Owned { d with chunks := d.chunks.push (.ofCapacity n) } := by
  have hchunk : ∀ x ≠ d.chunks.size,
      ({ d with chunks := d.chunks.push (.ofCapacity n) } : Depot).chunk x = d.chunk x := by
    intro x hx
    simp only [chunk, Array.getElem?_push, if_neg hx]
  refine ⟨h.capacity_pos, ?_, ?_, h.alone, ?_, h.ledgered_le,
    h.writable_le⟩
  · intro x
    by_cases hx : x = d.chunks.size
    · have hnew : ({ d with chunks := d.chunks.push (.ofCapacity n) } : Depot).chunk x =
          .ofCapacity n := by simp [hx, chunk]
      rw [hnew]
      exact Nat.lt_of_lt_of_le Nat.zero_lt_one (Nat.le_max_right n 1)
    · rw [hchunk x hx]
      exact h.room x
  · intro x hx
    rw [Array.size_push] at hx
    exact h.unused x (Nat.le_of_succ_le hx)
  · intro x hx
    have hlt : x < d.chunks.size := h.lt_size (by rw [h.alone x hx]; omega)
    rw [hchunk x (Nat.ne_of_lt hlt)]
    exact h.empty x hx

end Owned

/-! ## Chunks handed out -/

/-- A chunk that was handed out and that no one has written to or shared. -/
structure Fresh (d : Depot) (c : ChunkId) : Prop where
  lt_size : c < d.chunks.size
  not_free : c ∉ d.free
  unwritten : d.writable c = 0
  unshared : heldIn d.shares c = 0
  events : (d.chunk c).events = #[]

theorem Fresh.alike {d d' : Depot} {c : ChunkId} (h : Fresh d c) (ha : Alike d d') :
    Fresh d' c where
  lt_size := by rw [ha.chunks]; exact h.lt_size
  not_free := by rw [ha.free]; exact h.not_free
  unwritten := by rw [ha.writable]; exact h.unwritten
  unshared := by rw [ha.shares]; exact h.unshared
  events := by rw [ha.chunk]; exact h.events

namespace Owned

variable {d d' : Depot} {c x : ChunkId} {k j : CollectorId} {w v : WriterId} {s : Writer}

/-- **A chunk taken is referred to by nothing and is empty.** -/
theorem take (h : Owned d) :
    Owned d.take.2 ∧ Fresh d.take.2 d.take.1 ∧ d.take.2.ledgered d.take.1 = 0 := by
  unfold Depot.take
  split
  · next c rest hfree =>
    have hmem : c ∈ d.free := by rw [hfree]; exact List.mem_cons_self
    obtain ⟨hcount, hledgered, hwritable, hshares⟩ := h.counts_of_mem_free hmem
    have hrefs : ∀ x, references { d with free := rest } x ≤ d.references x := by
      intro x
      rw [references_withFree, references_eq d x, hfree, List.count_cons]
      omega
    have hsub : ∀ x ∈ rest, x ∈ d.free := by
      intro x hx
      rw [hfree]
      exact List.mem_cons_of_mem c hx
    have hnot : c ∉ rest := by
      rw [hfree, List.count_cons_self] at hcount
      exact List.count_eq_zero.mp (by omega)
    refine ⟨⟨h.capacity_pos, h.room, ?_, ?_,
      fun x hx => h.empty x (hsub x hx), h.ledgered_le, h.writable_le⟩, ⟨?_, hnot, hwritable,
      hshares, (h.empty c hmem).1⟩, hledgered⟩
    · intro x hx
      exact Nat.le_zero.mp (h.unused x hx ▸ hrefs x)
    · intro x hx
      have hle : references { d with free := rest } x ≤ 1 := h.alone x (hsub x hx) ▸ hrefs x
      have hcount : 1 ≤ rest.count x := List.one_le_count_iff.mpr hx
      rw [references_withFree] at hle
      refine (references_withFree d rest x).trans ?_
      omega
    · exact h.lt_size (by rw [h.alone c hmem]; omega)
  · next hfree =>
    -- the place of a chunk that is made is referred to by nothing yet
    have hunused := references_eq d d.chunks.size
    rw [h.unused d.chunks.size (Nat.le_refl _)] at hunused
    have hpush : Owned { d with chunks := d.chunks.push (.ofCapacity d.capacity),
                                allocated := d.allocated + 1 } := by
      refine (h.pushChunk d.capacity).mono rfl rfl rfl ?_ ?_ ?_ <;> exact fun _ => Nat.le_refl _
    refine ⟨hpush.alike (.note fun _ => rfl), ⟨?_, ?_, ?_, ?_, ?_⟩, ?_⟩
    · simp [note]
    · simp [note, hfree]
    · show d.writable d.chunks.size = 0
      omega
    · show heldIn d.shares d.chunks.size = 0
      omega
    · simp [note, chunk, Chunk.ofCapacity]
    · show d.ledgered d.chunks.size = 0
      omega

/-- **A chunk entered is in one ledger** and is not written to yet. -/
theorem enterChunk (h : Owned d) (k : CollectorId) :
    Owned (d.enterChunk k).2 ∧ Fresh (d.enterChunk k).2 (d.enterChunk k).1 := by
  obtain ⟨htake, hfresh, hledgered⟩ := h.take
  refine ⟨?_, ⟨hfresh.lt_size, hfresh.not_free, hfresh.unwritten, hfresh.unshared,
    hfresh.events⟩⟩
  have hcount : ∀ x, ((d.take.2.collector k).enter d.take.1).ledger.countP (·.chunk == x) =
      (d.take.2.collector k).ledger.countP (·.chunk == x) + if d.take.1 = x then 1 else 0 := by
    intro x
    simp only [Collector.enter, List.countP_append, List.countP_singleton, beq_iff_eq]
  refine htake.refer d.take.1 rfl rfl rfl hfresh.not_free hfresh.lt_size ?_ ?_ ?_ ?_ ?_
  · rcases Nat.lt_or_ge k d.take.2.collectors.size with hk | hk
    · have h1 := ledgered_modifyCollector (f := fun s => s.enter d.take.1) (c := d.take.1) hk
      rw [hcount, if_pos rfl] at h1
      simp only [Depot.enterChunk]
      omega
    · simp only [Depot.enterChunk, modifyCollector_of_ge hk]
      omega
  · exact htake.writable_le _
  · intro x hx
    rcases Nat.lt_or_ge k d.take.2.collectors.size with hk | hk
    · have h1 := ledgered_modifyCollector (f := fun s => s.enter d.take.1) (c := x) hk
      rw [hcount, if_neg (Ne.symm hx)] at h1
      simp only [Depot.enterChunk]
      omega
    · simp only [Depot.enterChunk, modifyCollector_of_ge hk]
      exact Nat.le_refl _
  · exact fun _ _ => Nat.le_refl _
  · exact fun _ _ => Nat.le_refl _

/-- What is entered was in no ledger. -/
theorem not_ledgers_enterChunk (h : Owned d) (k j : CollectorId) :
    ¬ d.Ledgers j (d.enterChunk k).1 := by
  intro hj
  have h1 : d.take.2.ledgered d.take.1 = 0 := h.take.2.2
  have h2 : 1 ≤ d.ledgered d.take.1 := ledgered_pos hj
  unfold ledgered at h1 h2
  rw [take_collectors] at h1
  omega

/-- A writer may take up a fresh chunk in place of the one it has. -/
theorem fill (h : Owned d) (hx : Fresh d x) (w : WriterId) :
    Owned (d.modifyWriter w fun s => { s with chunk := some x }) := by
  cases hw : d.writer? w with
  | none =>
    refine h.mono rfl rfl rfl (fun _ => Nat.le_refl _) ?_ (fun _ => Nat.le_refl _)
    intro c
    exact Nat.le_of_eq (congrArg (heldIn d.rentals c + ·) (filling_modifyWriter_of_none hw))
  | some s =>
    have hfill : ∀ c, (d.modifyWriter w fun s => { s with chunk := some x }).filling c ≤
        d.filling c + if x = c then 1 else 0 := by
      intro c
      have hsum := filling_modifyWriter (f := fun s => { s with chunk := some x }) (c := c) hw
      have hnew : ((some x : Option ChunkId) == some c).toNat = if x = c then 1 else 0 := by
        by_cases hxc : x = c <;> simp [hxc]
      simp only [hnew] at hsum
      omega
    -- whatever the writer filled before it lets go, so no other chunk gains
    have hunwritten := hx.unwritten
    unfold writable at hunwritten
    refine h.refer x rfl rfl rfl hx.not_free hx.lt_size (h.ledgered_le x) ?_
      (fun _ _ => Nat.le_refl _) ?_ (fun _ _ => Nat.le_refl _)
    · have := hfill x
      rw [if_pos rfl] at this
      show heldIn d.rentals x + _ ≤ 1
      omega
    · intro c hc
      have := hfill c
      rw [if_neg (Ne.symm hc)] at this
      exact Nat.add_le_add_left this _

/-- A fresh chunk may be rented out. -/
theorem lend (h : Owned d) (hx : Fresh d x) : Owned (d.lend x) := by
  have hunwritten := hx.unwritten
  unfold writable at hunwritten
  refine h.refer x rfl rfl rfl hx.not_free hx.lt_size (h.ledgered_le x) ?_
    (fun _ _ => Nat.le_refl _) ?_ (fun _ _ => Nat.le_refl _)
  · show heldIn (d.rentals.push { chunk := x }) x + d.filling x ≤ 1
    rw [heldIn_push, beq_self_eq_true, Bool.toNat_true]
    omega
  · intro c hc
    show heldIn (d.rentals.push { chunk := x }) c + d.filling c ≤ d.writable c
    rw [heldIn_push, beq_eq_false_iff_ne.mpr (Ne.symm hc), Bool.toNat_false]
    exact Nat.le_refl _

/-- A chunk that is not free may be shared. -/
theorem addShare (h : Owned d) (hx : x ∉ d.free) (hsize : x < d.chunks.size) :
    Owned (d.addShare x).2 := by
  refine h.refer x rfl rfl rfl hx hsize (h.ledgered_le x) (h.writable_le x)
    (fun _ _ => Nat.le_refl _) (fun _ _ => Nat.le_refl _) ?_
  intro c hc
  show heldIn (d.shares.push { chunk := x }) c ≤ heldIn d.shares c
  rw [heldIn_push, beq_eq_false_iff_ne.mpr (Ne.symm hc), Bool.toNat_false]
  exact Nat.le_refl _

/-- A writer may be changed in all but the chunk it fills, or let that go. -/
theorem modifyWriter (h : Owned d) {f : Writer → Writer}
    (hf : ∀ s, (f s).chunk = s.chunk ∨ (f s).chunk = none) : Owned (d.modifyWriter w f) := by
  refine h.mono rfl rfl rfl (fun _ => Nat.le_refl _) ?_ (fun _ => Nat.le_refl _)
  intro c
  refine Nat.add_le_add_left ?_ (heldIn d.rentals c)
  cases hw : d.writer? w with
  | none => exact Nat.le_of_eq (filling_modifyWriter_of_none hw)
  | some s =>
    have := filling_modifyWriter (f := f) (c := c) hw
    rcases hf s with hs | hs
    · rw [hs] at this
      omega
    · rw [hs, show ((none : Option ChunkId) == some c) = false from rfl, Bool.toNat_false] at this
      omega

/-- A writer may be dropped. -/
theorem vacate (h : Owned d) (w : WriterId) : Owned (d.vacate w) := by
  refine h.mono rfl rfl rfl (fun _ => Nat.le_refl _) ?_ (fun _ => Nat.le_refl _)
  intro c
  refine Nat.add_le_add_left ?_ (heldIn d.rentals c)
  show (d.writers.modify w fun _ => none).countP _ ≤ d.writers.countP _
  cases hw : d.writers[w]? with
  | none => exact Nat.le_of_eq (by rw [modify_of_none hw])
  | some s =>
    have := countP_modify (p := fun w : Option Writer => w.any (·.chunk == some c))
      (f := fun _ => none) hw
    rw [Option.any_none, Bool.toNat_false] at this
    omega

/-! ## Turns and moves -/

theorem markIdle (h : Owned d) (k : CollectorId) (c : ChunkId) : Owned (d.markIdle k c) := by
  refine h.modifyCollector fun x => Nat.le_of_eq ?_
  have := congrArg (List.countP (· == x)) (Collector.map_chunk_markIdle c (d.collector k).ledger)
  simpa only [List.countP_map, Function.comp_def] using this

/-- The chunk a session lets go is marked idle, or offered. -/
theorem releaseChunk (h : Owned d) (hc : c < d.chunks.size) : Owned (d.releaseChunk k c) := by
  unfold Depot.releaseChunk
  split
  · exact h.giveBack hc
  · exact h.markIdle k c

/-- Whatever is entered is a chunk of the depot. -/
theorem lt_size_of_ledgers (h : Owned d) (hc : d.Ledgers k c) : c < d.chunks.size := by
  refine h.lt_size ?_
  have := ledgered_pos hc
  rw [references_eq]
  omega

/-- Whatever a writer fills is a chunk of the depot. -/
theorem lt_size_of_writer? (h : Owned d) (hw : d.writer? w = some s) (hc : s.chunk = some c) :
    c < d.chunks.size := by
  refine h.lt_size ?_
  have := filling_pos hw hc
  rw [references_eq, writable]
  omega

theorem evict (h : Owned d) (hevict : d.evictOldest? k = some d') : Owned d' := by
  obtain ⟨c, pre, post, hledger, -, rfl⟩ := evictOldest?_eq_some.mp hevict
  have hsize : c < d.chunks.size :=
    h.lt_size_of_ledgers (k := k) ⟨⟨c, false⟩, by rw [hledger]; simp, rfl⟩
  refine Owned.giveBack (.mono (h.modifyCollector (k := k)
    (f := (·.giveUp (pre ++ post) (d.chunk c).size)) fun x => ?_) rfl rfl rfl ?_ ?_ ?_) hsize
  · -- the ledger loses its entry before the chunk is offered
    simp only [Collector.giveUp, hledger, List.countP_append, List.countP_cons]
    omega
  all_goals exact fun _ => Nat.le_refl _

theorem turn (h : Owned d) (ht : Turn k d d') : Owned d' := by
  cases ht with
  | keep hagree => exact h.alike hagree.toAlike
  | close => exact h.modifyCollector fun _ => Nat.le_refl _
  | evict _ hevict => exact h.evict hevict

theorem letGo (h : Owned d) (w : WriterId) (k : CollectorId) : Owned (d.letGo w k) := by
  unfold Depot.letGo
  cases hw : d.writer? w with
  | none => exact h
  | some s =>
    simp only [Option.bind_some]
    cases hc : s.chunk with
    | none => exact h
    | some c =>
      -- the writer parts with the chunk first: a chunk is offered by who no longer holds it
      have hparted : Owned (d.modifyWriter w fun s => { s with chunk := none }) :=
        h.modifyWriter fun _ => .inr rfl
      exact hparted.releaseChunk (h.lt_size_of_writer? hw hc)

/-- **Every move keeps chunks owned.** -/
theorem move (h : Owned d) (hm : Move d d') : Owned d' := by
  cases hm with
  | turn _ ht => exact h.turn ht
  | hold =>
    obtain ⟨hentered, hfresh⟩ := h.enterChunk _
    exact hentered.fill hfresh _
  | letGo => exact h.letGo _ _
  | leave => exact h.modifyWriter fun _ => .inl rfl
  | vacate => exact h.vacate _

theorem moves (h : Owned d) (hm : Moves d d') : Owned d' := by
  induction hm with
  | refl => exact h
  | tail _ hstep ih => exact ih.move hstep

/-! ## In words -/

end Owned

/-- Who owns a chunk, holder by holder. -/
structure Exclusive (d : Depot) : Prop where
  /-- The free list has no duplicates. -/
  nodup_free : d.free.Nodup
  /-- A free chunk is empty and has the depot's capacity. -/
  free_empty : ∀ c ∈ d.free, (d.chunk c).events = #[] ∧ (d.chunk c).capacity = d.capacity
  /-- A free chunk is in no ledger and with no writer, rental or share. -/
  free_alone : ∀ c ∈ d.free, (∀ k, ¬ d.Ledgers k c) ∧
    (∀ w s, d.writer? w = some s → s.chunk ≠ some c) ∧
    (∀ r, d.rental? r ≠ some c) ∧ (∀ h, d.share? h ≠ some c)
  /-- No chunk is in a ledger twice. -/
  nodup_ledger : ∀ k, ((d.collector k).ledger.map LedgerEntry.chunk).Nodup
  /-- No chunk is in two ledgers. -/
  one_ledger : ∀ c j k, d.Ledgers j c → d.Ledgers k c → j = k
  /-- No two writers fill one chunk. -/
  one_writer : ∀ c w v s t, d.writer? w = some s → s.chunk = some c →
    d.writer? v = some t → t.chunk = some c → w = v
  /-- No two rentals are of one chunk. -/
  one_rental : ∀ c r q, d.rental? r = some c → d.rental? q = some c → r = q
  /-- No writer fills a chunk that is rented out. -/
  apart : ∀ c w s r, d.writer? w = some s → s.chunk = some c → d.rental? r ≠ some c

namespace Owned

variable {d : Depot}

/-- **Ownership is exclusive**: the counts come to that. -/
theorem exclusive (h : Owned d) : Exclusive d where
  nodup_free := h.nodup_free
  free_empty := h.empty
  free_alone c hc := by
    obtain ⟨-, hledgered, hwritable, hshares⟩ := h.counts_of_mem_free hc
    unfold writable at hwritable
    refine ⟨?_, ?_, ?_, ?_⟩
    · intro k hk
      have := ledgered_pos hk
      omega
    · intro w s hw hs
      have := filling_pos hw hs
      omega
    · intro r hr
      have := heldIn_of_rental? hr
      omega
    · intro q hq
      have := heldIn_of_share? hq
      omega
  nodup_ledger := nodup_ledger h.ledgered_le
  one_ledger c j k hj hk := ledgers_unique (h.ledgered_le c) hj hk
  one_writer c w v s t hw hs hv ht :=
    writer_unique (Nat.le_trans (Nat.le_add_left _ _) (h.writable_le c)) hw hs hv ht
  one_rental c r q hr hq := by
    obtain ⟨i, hi, hheld, hic⟩ := rental?_eq_some.mp hr
    obtain ⟨j, hj, hjheld, hjc⟩ := rental?_eq_some.mp hq
    exact holding_unique (Nat.le_trans (Nat.le_add_right _ _) (h.writable_le c)) hi hheld hic
      hj hjheld hjc
  apart c w s r hw hs hr := by
    have h1 := heldIn_of_rental? hr
    have h2 := filling_pos hw hs
    have h3 := h.writable_le c
    unfold writable at h3
    omega

end Owned

end Depot

end EventTrace
