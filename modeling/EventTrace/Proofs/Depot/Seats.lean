import EventTrace.Proofs.Depot.Contents
import EventTrace.Proofs.Depot.Tenure
/-!
# Depot — who sits at which chunk

A writer in a session sits at the chunk it fills. Most moves are quiet: no
ledger gains or loses a chunk, no one sits down, and an entry becomes idle
only as its writer gets up. The other two are an eviction and a writer that
sits down at a fresh chunk (`Owned.move_cases`), so whatever is said of
ledgers and seats has three cases to look at.
-/

namespace EventTrace

namespace Depot

variable {d d' : Depot} {c x : ChunkId} {k j : CollectorId} {w v : WriterId} {s : Writer}
  {t : Int}

/-- A writer of a session, for a thread, fills a chunk. -/
def Seat (d : Depot) (w : WriterId) (k : CollectorId) (t : Int) (c : ChunkId) : Prop :=
  ∃ s, d.writer? w = some s ∧ s.collector = some k ∧ s.thread = t ∧ s.chunk = some c

theorem Owned.seat_unique {i : CollectorId} {u : Int} (h : Owned d) (hw : Seat d w k t c)
    (hv : Seat d v i u c) : w = v := by
  obtain ⟨s, hs, -, -, hc⟩ := hw
  obtain ⟨r, hr, -, -, hx⟩ := hv
  exact h.exclusive.one_writer c w v s r hs hc hr hx

/-- A writer sits at one chunk. -/
theorem Seat.unique {i : CollectorId} {u : Int} (hw : Seat d w k t c) (hv : Seat d w i u x) :
    k = i ∧ t = u ∧ c = x := by
  obtain ⟨s, hs, hk, rfl, hc⟩ := hw
  obtain ⟨r, hr, hi, rfl, hx⟩ := hv
  rw [hs, Option.some.injEq] at hr
  subst hr
  rw [hk, Option.some.injEq] at hi
  rw [hc, Option.some.injEq] at hx
  exact ⟨hi, rfl, hx⟩

theorem Seat.filling_pos (h : Seat d w k t c) : 1 ≤ d.filling c := by
  obtain ⟨s, hs, -, -, hc⟩ := h
  exact Depot.filling_pos hs hc

/-- A move that moves no chunk: no ledger gains or loses one, no one sits
down, and an entry becomes idle only as its writer gets up. -/
structure Quiet (d d' : Depot) : Prop where
  entries : ∀ k, (d'.collector k).ledger.map LedgerEntry.chunk =
    (d.collector k).ledger.map LedgerEntry.chunk
  active : ∀ k c, ⟨c, true⟩ ∈ (d'.collector k).ledger → ⟨c, true⟩ ∈ (d.collector k).ledger
  closed : ∀ k, (d.collector k).closed = true → (d'.collector k).closed = true
  seat : ∀ w k t c, Seat d' w k t c → Seat d w k t c
  /-- A writer that stays seated stays at an active entry. -/
  stays : ∀ w k t c, Seat d' w k t c → ⟨c, true⟩ ∈ (d.collector k).ledger →
    ⟨c, true⟩ ∈ (d'.collector k).ledger
  /-- A writer of an open session gets up from an active entry only as that
  becomes idle. -/
  sits : ∀ w k t c, (d'.collector k).closed = false → ⟨c, true⟩ ∈ (d'.collector k).ledger →
    Seat d w k t c → Seat d' w k t c
  events : ∀ c, 1 ≤ d'.ledgered c + d'.filling c → (d'.chunk c).events = (d.chunk c).events

theorem Quiet.ledgers (h : Quiet d d') : d'.Ledgers k c ↔ d.Ledgers k c := by
  rw [ledgers_iff, ledgers_iff, h.entries]

/-- Where ledgers and seats are the same, a move is quiet. -/
theorem Quiet.of_same (hledger : ∀ k, (d'.collector k).ledger = (d.collector k).ledger)
    (hclosed : ∀ k, (d.collector k).closed = true → (d'.collector k).closed = true)
    (hseat : ∀ w k t c, Seat d' w k t c ↔ Seat d w k t c)
    (hevents : ∀ c, (d'.chunk c).events = (d.chunk c).events) : Quiet d d' where
  entries k := by rw [hledger]
  active k c hc := by rwa [← hledger]
  closed := hclosed
  seat w k t c := (hseat w k t c).mp
  stays w k t c _ hc := by rwa [hledger]
  sits w k t c _ _ := (hseat w k t c).mpr
  events c _ := hevents c

theorem Seat.of_alike (ha : Alike d d') (h : Seat d' w k t c) : Seat d w k t c := by
  obtain ⟨s', hw', hk, ht, hc⟩ := h
  obtain ⟨s, hw, hcore⟩ := ha.writer? hw'
  refine ⟨s, hw, ?_, ?_, ?_⟩
  · rw [← hk]
    simpa using congrArg Writer.collector hcore
  · rw [← ht]
    simpa using congrArg Writer.thread hcore
  · rw [← hc]
    simpa using congrArg Writer.chunk hcore

/-- Bookkeeping is quiet. -/
theorem quiet_of_alike (h : Alike d d') : Quiet d d' :=
  .of_same h.ledger (fun k hk => (h.closed k).trans hk)
    (fun _ _ _ _ => ⟨Seat.of_alike h, Seat.of_alike h.symm⟩) fun c => by rw [h.chunk]

theorem quiet_close (d : Depot) (k : CollectorId) : Quiet d (d.close k) :=
  .of_same (Still.close d k).ledger (Still.close d k).closed (fun _ _ _ _ => Iff.rfl)
    fun _ => rfl

/-- A writer without a chunk has no seat to leave. -/
theorem quiet_leave (hw : d.writer? w = some s) (hc : s.chunk = none) : Quiet d (d.leave w) := by
  refine .of_same (fun _ => rfl) (fun _ => id) ?_ fun _ => rfl
  intro v k t c
  by_cases hv : v = w
  · subst hv
    constructor
    · rintro ⟨r, hr, hk, -, -⟩
      rw [leave, writer?_modifyWriter, hw, Option.map_some, Option.some.injEq] at hr
      rw [← hr] at hk
      exact absurd hk (by simp)
    · rintro ⟨r, hr, -, -, hrc⟩
      rw [hw, Option.some.injEq] at hr
      rw [← hr, hc] at hrc
      exact absurd hrc (by simp)
  · unfold Seat leave
    rw [writer?_modifyWriter_of_ne hv]

theorem writer?_vacate (d : Depot) (w : WriterId) : (d.vacate w).writer? w = none := by
  simp only [writer?, vacate, Array.getElem?_modify, if_true]
  cases d.writers[w]? <;> rfl

theorem writer?_vacate_of_ne (h : v ≠ w) : (d.vacate w).writer? v = d.writer? v := by
  simp [writer?, vacate, Array.getElem?_modify, Ne.symm h]

theorem quiet_vacate (hw : d.writer? w = some s) (hs : s.chunk = none ∨ s.collector = none) :
    Quiet d (d.vacate w) := by
  refine .of_same (fun _ => rfl) (fun _ => id) ?_ fun _ => rfl
  intro v k t c
  by_cases hv : v = w
  · subst hv
    constructor
    · rintro ⟨r, hr, -⟩
      rw [writer?_vacate] at hr
      exact absurd hr (by simp)
    · rintro ⟨r, hr, hk, -, hc⟩
      rw [hw, Option.some.injEq] at hr
      rw [← hr] at hk hc
      rcases hs with hs | hs
      · exact absurd (hs.symm.trans hc) (by simp)
      · exact absurd (hs.symm.trans hk) (by simp)
  · unfold Seat
    rw [writer?_vacate_of_ne hv]

/-- A writer that lets its chunk go gets up. -/
theorem seat_letGo : Seat (d.letGo w j) v k t c ↔ v ≠ w ∧ Seat d v k t c := by
  by_cases hv : v = w
  · subst hv
    refine ⟨?_, fun h => absurd rfl h.1⟩
    rintro ⟨r, hr, -, -, hc⟩
    cases hw : d.writer? v with
    | none =>
      have hsame : d.letGo v j = d := by simp [letGo, hw]
      rw [hsame, hw] at hr
      exact absurd hr (by simp)
    | some s =>
      rw [writer?_letGo hw, Option.some.injEq] at hr
      rw [← hr] at hc
      exact absurd hc (by simp)
  · unfold Seat
    rw [writer?_letGo_of_ne hv]
    exact ⟨fun h => ⟨hv, h⟩, fun h => h.2⟩

/-- A release leaves alone what ledgers and writers hold. -/
theorem events_releaseChunk
    (hc : 1 ≤ (d.releaseChunk k x).ledgered c + (d.releaseChunk k x).filling c) :
    ((d.releaseChunk k x).chunk c).events = (d.chunk c).events := by
  rw [filling, releaseChunk_writers, ← filling] at hc
  unfold Depot.releaseChunk at hc ⊢
  split
  · next hclosed =>
    rw [if_pos hclosed, ledgered, giveBack_collectors, ← ledgered] at hc
    rw [chunk_giveBack]
    rw [references_eq, writable]
    omega
  · rfl

/-- Letting go is quiet: the entry that becomes idle is of the writer that
gets up. -/
theorem Owned.quiet_letGo (h : Owned d) (hw : d.writer? w = some s) (hs : s.collector = some j) :
    Quiet d (d.letGo w j) := by
  cases hx : s.chunk with
  | none =>
    have hsame : d.letGo w j = d := by simp [Depot.letGo, hw, hx]
    rw [hsame]
    exact quiet_of_alike (.refl d)
  | some x =>
    have hseat : Seat d w j s.thread x := ⟨s, hw, hs, rfl, hx⟩
    have hletGo : d.letGo w j =
        (d.modifyWriter w fun s => { s with chunk := none }).releaseChunk j x := by
      simp [Depot.letGo, hw, hx]
    refine ⟨?_, ?_, ?_, fun v k t c hv => (seat_letGo.mp hv).2,
      ?_, ?_, ?_⟩
    · intro k
      rw [hletGo, map_chunk_releaseChunk]
      rfl
    · intro k c hc
      rw [hletGo] at hc
      rcases mem_ledger_releaseChunk hc with hc | ⟨-, heq⟩
      · exact hc
      · exact absurd (congrArg LedgerEntry.active heq) (by simp)
    · intro k hk
      rw [closed_letGo, hk]
    · intro v k t c hv hc
      obtain ⟨hvw, hv⟩ := seat_letGo.mp hv
      -- two writers never sit at one chunk
      have hcx : c ≠ x := by
        rintro rfl
        exact hvw (h.seat_unique hv hseat)
      rw [hletGo]
      exact mem_releaseChunk_of_mem hc hcx
    · intro v k t c hopen hc hv
      -- the writer that got up left an idle entry, so it was not at an active one
      refine seat_letGo.mpr ⟨?_, hv⟩
      rintro rfl
      obtain ⟨rfl, -, rfl⟩ := hv.unique hseat
      rw [closed_letGo] at hopen
      rw [hletGo] at hc
      have hnodup := nodup_ledger h.ledgered_le k
      exact not_mem_releaseChunk (d := d.modifyWriter v fun s => { s with chunk := none })
        hnodup hopen hc
    · intro c hc
      rw [hletGo] at hc ⊢
      exact events_releaseChunk hc

/-- **A move is quiet, an eviction, or a writer that sits down.** -/
theorem Owned.move_cases (h : Owned d) (hm : Move d d') :
    Quiet d d' ∨ (∃ k, (d.collector k).closed = false ∧ d.evictOldest? k = some d') ∨
      ∃ w s k, d.writer? w = some s ∧ s.collector = some k ∧ s.chunk = none ∧
        (d.collector k).closed = false ∧ (d.collector k).hasChunkRoom = true ∧
        d' = d.hold w k := by
  cases hm with
  | turn k ht =>
    cases ht with
    | keep hagree => exact .inl (quiet_of_alike hagree.toAlike)
    | close => exact .inl (quiet_close d k)
    | evict hopen hevict => exact .inr (.inl ⟨k, hopen, hevict⟩)
  | hold hw hs hc hopen hroom => exact .inr (.inr ⟨_, _, _, hw, hs, hc, hopen, hroom, rfl⟩)
  | letGo hw hs => exact .inl (h.quiet_letGo hw hs)
  | leave hw hc => exact .inl (quiet_leave hw hc)
  | vacate hw hs => exact .inl (quiet_vacate hw hs)

/-! ## Evictions and writers that sit down -/

theorem seat_evict (hevict : d.evictOldest? j = some d') : Seat d' w k t c ↔ Seat d w k t c := by
  unfold Seat writer?
  rw [writers_evictOldest? hevict]

/-- An eviction resets no chunk that someone still refers to. -/
theorem events_evict (hevict : d.evictOldest? j = some d')
    (hc : 1 ≤ d'.ledgered c + d'.filling c) : (d'.chunk c).events = (d.chunk c).events := by
  obtain ⟨x, pre, post, -, -, rfl⟩ := evictOldest?_eq_some.mp hevict
  rw [chunk_giveBack]
  · rfl
  · rw [ledgered, giveBack_collectors, ← ledgered, filling, giveBack_writers, ← filling] at hc
    rw [references_eq, writable]
    omega

/-- The one who sits down is the writer, at the fresh chunk. -/
theorem seat_hold {i : CollectorId} (hw : d.writer? w = some s) (hs : s.collector = some k) :
    Seat (d.hold w k) v i t c ↔
      (v = w ∧ i = k ∧ t = s.thread ∧ c = (d.enterChunk k).1) ∨ (v ≠ w ∧ Seat d v i t c) := by
  by_cases hv : v = w
  · subst hv
    constructor
    · rintro ⟨r, hr, hi, rfl, hc⟩
      rw [writer?_hold hw, Option.some.injEq] at hr
      subst hr
      simp only [Option.some.injEq] at hc
      exact .inl ⟨rfl, Option.some.inj (hi.symm.trans hs), rfl, hc.symm⟩
    · rintro (⟨-, rfl, rfl, rfl⟩ | ⟨hne, -⟩)
      · exact ⟨_, writer?_hold hw, hs, rfl, rfl⟩
      · exact absurd rfl hne
  · unfold Seat
    rw [writer?_hold_of_ne hv]
    simp [hv]

theorem events_hold (d : Depot) (w : WriterId) (k : CollectorId) (c : ChunkId) :
    ((d.hold w k).chunk c).events = (d.chunk c).events := take_events d c

/-! ## Who the writers are -/

/-- A move keeps writers in their places, each with its thread, its sequence
and its tests, in its session or in none. -/
structure SameStaff (d d' : Depot) : Prop where
  size : d'.writers.size = d.writers.size
  options : ∀ k, (d'.collector k).options = (d.collector k).options
  writer : ∀ w s', d'.writer? w = some s' → ∃ s, d.writer? w = some s ∧
    s'.screen = s.screen ∧ s'.thread = s.thread ∧ s'.sequence = s.sequence ∧
    (s'.collector = s.collector ∨ s'.collector = none)

theorem SameStaff.of_writers (hwriters : d'.writers = d.writers)
    (hoptions : ∀ k, (d'.collector k).options = (d.collector k).options) : SameStaff d d' where
  size := by rw [hwriters]
  options := hoptions
  writer w s' hw := by
    rw [writer?, hwriters] at hw
    exact ⟨s', hw, rfl, rfl, rfl, .inl rfl⟩

theorem SameStaff.trans {e : Depot} (h : SameStaff d d') (h' : SameStaff d' e) :
    SameStaff d e where
  size := h'.size.trans h.size
  options k := (h'.options k).trans (h.options k)
  writer w s'' hw := by
    obtain ⟨s', hw', hscreen', hthread', hsequence', hcollector'⟩ := h'.writer w s'' hw
    obtain ⟨s, hw, hscreen, hthread, hsequence, hcollector⟩ := h.writer w s' hw'
    refine ⟨s, hw, hscreen'.trans hscreen, hthread'.trans hthread, hsequence'.trans hsequence, ?_⟩
    rcases hcollector' with heq | hnone
    · rw [heq]
      exact hcollector
    · exact .inr hnone

/-- One writer changes, in its chunk or by leaving its session. -/
theorem SameStaff.of_writer? (hsize : d'.writers.size = d.writers.size)
    (hoptions : ∀ k, (d'.collector k).options = (d.collector k).options)
    (hothers : ∀ v ≠ w, d'.writer? v = d.writer? v)
    (hw : ∀ s', d'.writer? w = some s' → ∃ s, d.writer? w = some s ∧
      s'.screen = s.screen ∧ s'.thread = s.thread ∧ s'.sequence = s.sequence ∧
      (s'.collector = s.collector ∨ s'.collector = none)) : SameStaff d d' where
  size := hsize
  options := hoptions
  writer v s' hv := by
    by_cases hvw : v = w
    · subst hvw
      exact hw s' hv
    · rw [hothers v hvw] at hv
      exact ⟨s', hv, rfl, rfl, rfl, .inl rfl⟩

theorem options_evictOldest? (h : d.evictOldest? k = some d') (j : CollectorId) :
    (d'.collector j).options = (d.collector j).options := by
  obtain ⟨x, pre, post, -, -, hgiven, hothers⟩ := collector_evictOldest? h
  by_cases hj : j = k
  · rw [hj, hgiven]
    rfl
  · rw [hothers j hj]

theorem writers_size_letGo (d : Depot) (w : WriterId) (k : CollectorId) :
    (d.letGo w k).writers.size = d.writers.size := by
  unfold letGo
  split
  · rfl
  · rw [releaseChunk_writers]
    exact Array.size_modify

theorem options_letGo (d : Depot) (w : WriterId) (k j : CollectorId) :
    ((d.letGo w k).collector j).options = (d.collector j).options := by
  unfold letGo releaseChunk
  split
  · rfl
  · split
    · rw [collector, giveBack_collectors]
      rfl
    · rw [collector_markIdle]
      rfl

/-- **No move changes who the writers are.** -/
theorem sameStaff_move (hm : Move d d') : SameStaff d d' := by
  cases hm with
  | turn k ht =>
    cases ht with
    | keep hagree => exact .of_writers hagree.sameWriters hagree.options
    | close =>
      refine .of_writers rfl (congr_modifyCollector Collector.options ?_)
      intro _
      rfl
    | evict hopen hevict =>
      exact .of_writers (writers_evictOldest? hevict) (options_evictOldest? hevict)
  | @hold w s k hw hs hc hopen =>
    have hoptions : ∀ j, ((d.hold w k).collector j).options = (d.collector j).options := by
      intro j
      show ((d.enterChunk k).2.collector j).options = _
      rw [collector_enterChunk]
    refine .of_writer? (w := w) ?_ hoptions (fun v hv => writer?_hold_of_ne hv) fun s' hw' => ?_
    · show ((d.enterChunk k).2.writers.modify w _).size = _
      rw [Array.size_modify, enterChunk_writers]
    · rw [writer?_hold hw, Option.some.injEq] at hw'
      subst hw'
      exact ⟨s, hw, rfl, rfl, rfl, .inl rfl⟩
  | @letGo w s k hw hs =>
    refine .of_writer? (w := w) (writers_size_letGo d w k) (options_letGo d w k)
      (fun v hv => writer?_letGo_of_ne hv) fun s' hw' => ?_
    rw [writer?_letGo hw, Option.some.injEq] at hw'
    subst hw'
    exact ⟨s, hw, rfl, rfl, rfl, .inl rfl⟩
  | @leave w s hw hc =>
    refine .of_writer? (w := w) Array.size_modify (fun _ => rfl)
      (fun v hv => writer?_modifyWriter_of_ne hv) fun s' hw' => ?_
    rw [leave, writer?_modifyWriter, hw, Option.map_some, Option.some.injEq] at hw'
    subst hw'
    exact ⟨s, hw, rfl, rfl, rfl, .inr rfl⟩
  | @vacate w s hw hs =>
    refine .of_writer? (w := w) Array.size_modify (fun _ => rfl)
      (fun v hv => writer?_vacate_of_ne hv) fun s' hw' => ?_
    rw [writer?_vacate] at hw'
    exact absurd hw' (by simp)

theorem sameStaff_moves (hm : Moves d d') : SameStaff d d' := by
  induction hm with
  | refl => exact .of_writers rfl fun _ => rfl
  | tail _ hm ih => exact ih.trans (sameStaff_move hm)

/-! ## Freezes -/

theorem seat_freeze (d : Depot) (k : CollectorId) :
    Seat (d.freeze k).2 w j t c ↔ Seat d w j t c := by
  unfold Seat
  rw [writer?_freeze]

theorem sameStaff_freeze (d : Depot) (k : CollectorId) : SameStaff d (d.freeze k).2 := by
  obtain ⟨-, hfrozen⟩ := freeze_spec d k
  refine .of_writers hfrozen.writers ?_
  intro j
  by_cases hj : j = k
  · rw [hj, hfrozen.collector]
  · rw [hfrozen.others j hj]

end Depot

end EventTrace
