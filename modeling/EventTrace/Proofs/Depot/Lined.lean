import EventTrace.Proofs.Depot.Overflow
import EventTrace.Proofs.Depot.Untouched
/-!
# Depot — a lone writer's chunks, in line

The chunks of a session with a single writer stand in line: those the writer
has let go are full and idle, and behind them stands the one it fills
(`Lined`). Whatever the writer needs is then there to be given up: at the
chunk cap its full chunk has joined the idle ones, and at an event cap of one
chunk at least its own chunk has not reached that, so an idle one has. What is
given up is the oldest chunk of the line (`Thinned`), so the line stays a line
and the event is placed (`Lined.place`).
-/

namespace EventTrace

open Depot

namespace Options

/-- A session that drops the oldest, with no event cap or one of a chunk at
least. -/
structure Rolls (o : Options) (capacity : Nat) : Prop where
  policy : o.policy = .dropOldest
  cap : o.maxTotalEvents = 0 ∨ capacity ≤ o.maxTotalEvents

/-- So many events that either cap leaves them, with a chunk given up and an
event written. -/
structure Leaves (o : Options) (capacity b : Nat) : Prop where
  events : o.maxTotalEvents ≠ 0 → b ≤ o.maxTotalEvents - capacity + 1
  chunks : o.maxTotalChunks ≠ 0 → b ≤ (o.maxTotalChunks - 1) * capacity + 1

end Options

namespace Collector

variable {s : Collector} {c : ChunkId} {n : Nat}

/-- Marking an entry idle changes no other. -/
theorem markIdle_of_mem {pre post : List LedgerEntry} (hc : c ∉ pre.map LedgerEntry.chunk)
    (active : Bool) : markIdle c (pre ++ ⟨c, active⟩ :: post) = pre ++ ⟨c, false⟩ :: post := by
  induction pre with
  | nil => simp [markIdle]
  | cons entry pre ih =>
    rw [List.map_cons, List.mem_cons, not_or] at hc
    rw [List.cons_append, markIdle, if_neg (Ne.symm hc.1), ih hc.2, List.cons_append]

/-- Where there is no room for an event, as many are held as the cap says. -/
theorem le_of_not_hasEventRoom (hcount : s.eventCount = UInt64.ofNat n)
    (hfull : s.hasEventRoom = false) :
    s.options.maxTotalEvents ≠ 0 ∧ s.options.maxTotalEvents ≤ n := by
  have hle : s.eventCount.toNat ≤ n := by
    rw [hcount, UInt64.toNat_ofNat']
    exact Nat.mod_le ..
  simp only [hasEventRoom, Bool.or_eq_false_iff, beq_eq_false_iff_ne, decide_eq_false_iff_not,
    Nat.not_lt] at hfull
  exact ⟨hfull.1, by omega⟩

end Collector

namespace Depot

variable {d d' e : Depot} {c x : ChunkId} {k : CollectorId} {w : WriterId} {s : Writer}
  {full : List ChunkId} {own : Option ChunkId} {n : Nat}

/-! ## What is given up -/

/-- Room was made: nothing a session was given is off its record, and what it
holds it holds on to, or so much of it as its caps leave. -/
structure Thinned (k : CollectorId) (d d' : Depot) : Prop where
  moves : Moves d d'
  capacity : d'.capacity = d.capacity
  kept : d'.kept k = d.kept k
  held : d'.held k = d.held k ∨
    ∀ b, (d.collector k).options.Leaves d.capacity b → b ≤ d'.held k + 1

namespace Thinned

theorem options (h : Thinned k d d') :
    (d'.collector k).options = (d.collector k).options := (sameStaff_moves h.moves).options k

theorem trans (h : Thinned k d d') (h' : Thinned k d' e) : Thinned k d e where
  moves := h.moves.trans h'.moves
  capacity := h'.capacity.trans h.capacity
  kept := h'.kept.trans h.kept
  held := by
    rcases h'.held with heq | hleaves
    · rw [heq]
      exact h.held
    · rw [h.options, h.capacity] at hleaves
      exact .inr hleaves

/-- Where nothing is given up. -/
theorem of_same (hmoves : Moves d d') (hcapacity : d'.capacity = d.capacity)
    (hcontents : (d'.contents k).flatten = (d.contents k).flatten)
    (hevictions : d'.evictions k = d.evictions k) : Thinned k d d' where
  moves := hmoves
  capacity := hcapacity
  kept := by rw [Depot.kept, Depot.kept, hcontents, hevictions]
  held := .inl (by rw [Depot.held, Depot.held, hcontents])

theorem refl (k : CollectorId) (d : Depot) : Thinned k d d := of_same .refl rfl rfl rfl

theorem agree (h : Agree d d') : Thinned k d d' :=
  of_same (Moves.of_agree h) h.capacity (by rw [h.contents k]) (h.evictions k)

end Thinned

/-! ## The line -/

/-- The chunks of a session in line: full ones that are idle, the oldest first,
and behind them the one that its writer fills, if any. -/
structure Lined (d : Depot) (k : CollectorId) (w : WriterId) (full : List ChunkId)
    (own : Option ChunkId) : Prop where
  owned : Owned d
  opened : (d.collector k).closed = false
  slotted : (d.collector k).Slotted
  counted : (d.collector k).eventCount = UInt64.ofNat (d.held k)
  fills : (d.writer? w).bind Writer.chunk = own
  ledger : (d.collector k).ledger =
    full.map (LedgerEntry.mk · false) ++ own.toList.map (LedgerEntry.mk · true)
  filled : ∀ c ∈ full, (d.chunk c).size = d.capacity
  room : ∀ c, own = some c → (d.chunk c).capacity = d.capacity ∧ (d.chunk c).size ≤ d.capacity

namespace Lined

theorem ledgers_of_mem (h : Lined d k w full own) (hc : c ∈ full) : d.Ledgers k c := by
  refine ⟨⟨c, false⟩, ?_, rfl⟩
  rw [h.ledger]
  exact List.mem_append_left _ (List.mem_map_of_mem hc)

theorem ledgers_own (h : Lined d k w full (some c)) : d.Ledgers k c := by
  refine ⟨⟨c, true⟩, ?_, rfl⟩
  rw [h.ledger]
  simp

/-- The writer's chunk is none of the idle ones. -/
theorem not_mem_full (h : Lined d k w full (some c)) : c ∉ full := by
  have hnodup := nodup_ledger h.owned.ledgered_le k
  rw [h.ledger, List.map_append, List.nodup_append] at hnodup
  intro hc
  refine hnodup.2.2 c ?_ c ?_ rfl
  · exact List.mem_map_of_mem (f := LedgerEntry.chunk) (List.mem_map_of_mem hc)
  · simp

/-- What a session holds: the idle chunks, and what its writer wrote since. -/
theorem held (h : Lined d k w full own) :
    d.held k = full.length * d.capacity + own.elim 0 fun c => (d.chunk c).size := by
  have hfull : (full.map fun c => (d.chunk c).size).sum = full.length * d.capacity := by
    rw [List.map_congr_left h.filled, List.map_const', List.sum_replicate_nat]
  rw [held_eq_sum, h.ledger, List.map_append, List.sum_append, List.map_map, List.map_map]
  refine congrArg₂ (· + ·) hfull ?_
  cases own <;> rfl

/-- What touches neither the session nor its chunks leaves the line. -/
theorem congr (h : Lined d k w full own) (howned : Owned d')
    (hcapacity : d'.capacity = d.capacity)
    (hcore : (d'.collector k).core = (d.collector k).core)
    (hfills : (d'.writer? w).bind Writer.chunk = (d.writer? w).bind Writer.chunk)
    (hchunk : ∀ c, d.Ledgers k c → d'.chunk c = d.chunk c) : Lined d' k w full own := by
  have hclosed : (d'.collector k).closed = (d.collector k).closed := by
    simpa using congrArg Collector.closed hcore
  have hcount : (d'.collector k).eventCount = (d.collector k).eventCount := by
    simpa using congrArg Collector.eventCount hcore
  have hledger : (d'.collector k).ledger = (d.collector k).ledger := by
    simpa using congrArg Collector.ledger hcore
  have hslots := congrArg Collector.slots hcore
  have hcontents : d'.contents k = d.contents k :=
    contents_congr (by rw [hledger]) fun c hc => by rw [hchunk c hc]
  refine ⟨howned, hclosed.trans h.opened, h.slotted.congr hslots, ?_,
    hfills.trans h.fills, hledger.trans h.ledger, fun c hc => ?_, fun c hc => ?_⟩
  · rw [hcount, Depot.held, hcontents, ← Depot.held, h.counted]
  · rw [hchunk c (h.ledgers_of_mem hc), hcapacity, h.filled c hc]
  · subst hc
    rw [hchunk c h.ledgers_own, hcapacity]
    exact h.room c rfl

/-- Bookkeeping leaves the line. -/
theorem alike (h : Lined d k w full own) (ha : Alike d d') : Lined d' k w full own := by
  refine h.congr (h.owned.alike ha) ha.capacity (ha.core k) ?_ fun c _ => ha.chunk c
  have hcore := congrArg (Option.bind · Writer.chunk) (ha.core_writer? w)
  simpa only [Option.bind_map, Function.comp_def, Writer.core_chunk] using hcore

/-! ## The oldest chunk is given up -/

theorem chunk_evict (hevict : d.evictOldest? k = some d') (hx : d'.Ledgers k x) :
    d'.chunk x = d.chunk x := by
  obtain ⟨c, pre, post, -, -, rfl⟩ := evictOldest?_eq_some.mp hevict
  rw [Ledgers, collector, giveBack_collectors, ← collector] at hx
  exact chunk_giveBack_of_ledgers hx c

/-- **Where there is an idle chunk, the oldest can be given up**, and the rest
of the line stays. -/
theorem evict (h : Lined d k w (c :: full) own)
    (hdue : ∀ b, (d.collector k).options.Leaves d.capacity b → b + d.capacity ≤ d.held k + 1) :
    ∃ d', d.evictOldest? k = some d' ∧ Lined d' k w full own ∧ Thinned k d d' ∧
      ∀ x, d'.Ledgers k x → d'.chunk x = d.chunk x := by
  obtain ⟨d', hevict⟩ : ∃ d', d.evictOldest? k = some d' := by
    simp [evictOldest?, h.ledger, Collector.oldestIdle?]
  obtain ⟨x, pre, post, hledger, hpre, hgiven, hcontents, hevictions⟩ := gaveUp_evict hevict
  -- the first entry of the line is idle, so nothing stands before the one that goes
  obtain ⟨rfl, rfl, hpost⟩ : pre = [] ∧ x = c ∧ post =
      full.map (LedgerEntry.mk · false) ++ own.toList.map (LedgerEntry.mk · true) := by
    rw [h.ledger, List.map_cons, List.cons_append] at hledger
    cases pre with
    | nil => simpa [eq_comm] using hledger
    | cons entry pre =>
      obtain ⟨rfl, -⟩ := List.cons.inj hledger
      exact absurd (hpre _ List.mem_cons_self) Bool.false_ne_true
  have hrest : (d'.collector k).ledger = post := by rw [hgiven]; rfl
  have hchunk : ∀ c, d'.Ledgers k c → d'.chunk c = d.chunk c := fun c hc => chunk_evict hevict hc
  have hcapacity : d'.capacity = d.capacity := by
    obtain ⟨-, -, -, -, -, rfl⟩ := evictOldest?_eq_some.mp hevict
    exact giveBack_capacity _ _
  refine ⟨d', hevict, ?_, ?_, hchunk⟩
  · have hlined : (d'.collector k).ledger =
        full.map (LedgerEntry.mk · false) ++ own.toList.map (LedgerEntry.mk · true) :=
      hrest.trans hpost
    refine ⟨h.owned.evict hevict, ?_, slotted_evict hevict h.slotted,
      (Sheds.of_evict hevict k).counted h.counted, ?_, hlined, fun y hy => ?_, fun y hy => ?_⟩
    · rw [closed_evictOldest? hevict, h.opened]
    · rw [writer?, writers_evictOldest? hevict, ← writer?, h.fills]
    · have hin : d'.Ledgers k y := ⟨⟨y, false⟩, by rw [hlined]; simp [hy], rfl⟩
      rw [hchunk y hin, hcapacity, h.filled y (List.mem_cons_of_mem _ hy)]
    · have hin : d'.Ledgers k y := ⟨⟨y, true⟩, by rw [hlined, hy]; simp, rfl⟩
      rw [hchunk y hin, hcapacity]
      exact h.room y hy
  · refine ⟨.single (.turn k (.evict h.opened hevict)), hcapacity, ?_, ?_⟩
    · rw [kept, kept, hevictions, hcontents, contents, hledger]
      simp
    · have hheld : d.held k = d'.held k + d.capacity := by
        rw [Sheds.held_of_gaveUp hledger hcontents]
        exact congrArg (d'.held k + ·) (h.filled x List.mem_cons_self)
      refine .inr fun b hb => ?_
      have := hdue b hb
      omega

/-! ## A chunk with room -/

/-- A full chunk that its writer lets go joins the idle ones. -/
theorem letGo (h : Lined d k w full (some c)) (hw : d.writer? w = some s)
    (hs : s.collector = some k) (hfull : (d.chunk c).isFull = true) :
    Lined (d.letGo w k) k w (full ++ [c]) none ∧ Thinned k d (d.letGo w k) := by
  have hc : s.chunk = some c := by simpa [hw] using h.fills
  have hletGo : d.letGo w k =
      (d.modifyWriter w fun s => { s with chunk := none }).markIdle k c := by
    have hopen : ((d.modifyWriter w fun s => { s with chunk := none }).collector k).closed =
        false := h.opened
    simp [Depot.letGo, hw, hc, releaseChunk, hopen]
  have hsame := same_letGo d w k k
  have hchunk : ∀ x, (d.letGo w k).chunk x = d.chunk x := fun x => by
    rw [hletGo]
    rfl
  have hcapacity : (d.letGo w k).capacity = d.capacity := by
    rw [hletGo]
    rfl
  refine ⟨⟨h.owned.letGo w k, ?_, h.slotted.congr (slots_letGo d w k k), ?_, ?_, ?_,
    fun x hx => ?_, fun x hx => absurd hx (by simp)⟩,
    .of_same (.single (.letGo hw hs)) hcapacity (by rw [hsame.contents]) hsame.evictions⟩
  · rw [closed_letGo, h.opened]
  · rw [hsame.eventCount, Depot.held, hsame.contents, ← Depot.held, h.counted]
  · simp [writer?_letGo hw]
  · have hmarked : Collector.markIdle c (d.collector k).ledger =
        full.map (LedgerEntry.mk · false) ++ [⟨c, false⟩] := by
      rw [h.ledger]
      refine Collector.markIdle_of_mem ?_ true
      rw [List.map_map]
      simpa [Function.comp_def] using h.not_mem_full
    rw [hletGo, ledger_markIdle]
    refine hmarked.trans ?_
    simp
  · rw [hchunk, hcapacity]
    rcases List.mem_append.mp hx with hx | hx
    · exact h.filled x hx
    · obtain rfl := List.mem_singleton.mp hx
      obtain ⟨hroom, hle⟩ := h.room x rfl
      simp only [Chunk.isFull, decide_eq_true_eq] at hfull
      omega

/-- A chunk that is taken has the depot's capacity. -/
theorem capacity_take (h : Owned d) : (d.take.2.chunk d.take.1).capacity = d.capacity := by
  unfold take
  split
  · next c rest hfree =>
    exact (h.empty c (by rw [hfree]; exact List.mem_cons_self)).2
  · have hpos : 1 ≤ d.capacity := h.capacity_pos
    simp [note, chunk, Chunk.ofCapacity, hpos]

/-- A writer without a chunk takes up an empty one, behind the others. -/
theorem hold (h : Lined d k w full none) (hk : k < d.collectors.size)
    (hw : d.writer? w = some s) (hs : s.collector = some k)
    (hroom : (d.collector k).hasChunkRoom = true) :
    Lined (d.hold w k) k w full (some (d.enterChunk k).1) ∧ Thinned k d (d.hold w k) ∧
      ((d.hold w k).chunk (d.enterChunk k).1).size = 0 := by
  have hc : s.chunk = none := by simpa [hw] using h.fills
  have hmove : Move d (d.hold w k) := .hold hw hs hc h.opened hroom
  have hcapacity : (d.hold w k).capacity = d.capacity := take_capacity d
  have hledger : ((d.hold w k).collector k).ledger =
      full.map (LedgerEntry.mk · false) ++ [⟨(d.enterChunk k).1, true⟩] := by
    have hentered : ((d.hold w k).collector k).ledger =
        (d.collector k).ledger ++ [⟨(d.enterChunk k).1, true⟩] := ledger_enterChunk hk
    rw [hentered, h.ledger]
    simp
  have hempty : ((d.hold w k).chunk (d.enterChunk k).1).size = 0 := by
    rw [Chunk.size, events_hold, h.owned.events_fresh]
    rfl
  have hcontents : ((d.hold w k).contents k).flatten = (d.contents k).flatten := by
    have hfresh := h.owned.events_fresh k
    simp [contents, hledger, h.ledger, events_hold, hfresh]
  refine ⟨⟨h.owned.move hmove, ?_, slotted_move hmove h.slotted,
    (h.owned.sheds_moves (.single hmove) k).counted h.counted, ?_, hledger, fun x hx => ?_,
    fun x hx => ?_⟩, .of_same (.single hmove) hcapacity hcontents (evictions_enterChunk d k k),
    hempty⟩
  · rw [hold_closed, h.opened]
  · rw [writer?_hold hw]
    rfl
  · have hlt := h.owned.lt_size_of_ledgers (h.ledgers_of_mem hx)
    have hchunk : (d.hold w k).chunk x = d.chunk x := chunk_take_of_lt hlt
    rw [hchunk, hcapacity, h.filled x hx]
  · obtain rfl := Option.some.inj hx
    have hfresh : ((d.hold w k).chunk (d.enterChunk k).1).capacity = d.capacity :=
      capacity_take h.owned
    rw [hfresh, hempty, hcapacity]
    exact ⟨rfl, Nat.zero_le _⟩

/-- **At the chunk cap the oldest chunk makes room**: with no chunk in hand, all
those the session has are idle. -/
theorem rentChunk (h : Lined d k w full none)
    (ho : (d.collector k).options.Rolls d.capacity) :
    ∃ d₁ d₂ rest, d.rentChunk k = (some (d₁.enterChunk k).1, d₂) ∧
      Agree (d₁.enterChunk k).2 d₂ ∧ Lined d₁ k w rest none ∧ Thinned k d d₁ ∧
      (d₁.collector k).hasChunkRoom = true ∧ d₁.writers = d.writers := by
  cases hroom : (d.collector k).hasChunkRoom with
  | true =>
    refine ⟨d, (d.enterChunk k).2, full, ?_, .refl _, h, .refl k d, hroom, rfl⟩
    simp [Depot.rentChunk, h.opened, hroom]
  | false =>
    obtain ⟨hmax, hcount⟩ := h.slotted.eq_of_full hroom
    have hlength : full.length = (d.collector k).options.maxTotalChunks := by
      rw [← hcount, h.slotted.count, h.ledger]
      simp
    obtain ⟨c, rest, rfl⟩ : ∃ c rest, full = c :: rest := by
      cases full with
      | nil => exact absurd hlength.symm hmax
      | cons c rest => exact ⟨c, rest, rfl⟩
    obtain ⟨d₁, hevict, hlined, hthinned, -⟩ := h.evict fun b hb => by
      have hle := hb.chunks hmax
      have hheld : d.held k = rest.length * d.capacity + d.capacity := by
        rw [h.held, List.length_cons, Nat.succ_mul]
        rfl
      rw [← hlength, List.length_cons, Nat.add_sub_cancel] at hle
      omega
    have hmade : makeChunkRoom (d.collector k).ledger.length d k = (true, d₁) := by
      rcases makeChunkRoom_of_slotted h.slotted hroom with ⟨hnone, -⟩ | ⟨e, he, hmade⟩
      · exact absurd (hnone.symm.trans hevict) (by simp)
      · rw [hmade, Option.some.inj (he.symm.trans hevict)]
    have hroom₁ : (d₁.collector k).hasChunkRoom = true := by
      obtain ⟨x, pre, post, -, -, hgiven, -, -⟩ := gaveUp_evict hevict
      rw [hgiven]
      exact h.slotted.hasChunkRoom_giveUp hroom _ _
    refine ⟨d₁, (d₁.enterChunk k).2.signal k .maxTotalChunks, rest, ?_, agree_signal _ k _,
      hlined, hthinned, hroom₁, writers_evictOldest? hevict⟩
    simp [Depot.rentChunk, rentAtCap, h.opened, hroom, ho.policy, hmade]

/-- **A writer comes to hold a chunk with room.** -/
theorem holdRoom (h : Lined d k w full own) (hk : k < d.collectors.size)
    (hw : d.writer? w = some s) (hs : s.collector = some k)
    (ho : (d.collector k).options.Rolls d.capacity) :
    ∃ d₁ rest c, d.holdRoom w k = (true, d₁) ∧ Lined d₁ k w rest (some c) ∧
      (d₁.chunk c).size < d.capacity ∧ Thinned k d d₁ := by
  have hown : s.chunk = own := by simpa [hw] using h.fills
  rcases holdRoom_eq k hw with ⟨c, hc, hfull, heq⟩ | ⟨hfull, heq⟩
  · obtain rfl : own = some c := hown.symm.trans hc
    refine ⟨d, full, c, heq, h, ?_, .refl k d⟩
    have hcapacity := (h.room c rfl).1
    simp only [Chunk.isFull, decide_eq_false_iff_not, Nat.not_le] at hfull
    omega
  · -- the chunk that was full, if there was one, stands with the idle ones now
    obtain ⟨full', hidle, hletGo⟩ : ∃ full', Lined (d.letGo w k) k w full' none ∧
        Thinned k d (d.letGo w k) := by
      cases own with
      | none =>
        have hsame : d.letGo w k = d := by simp [Depot.letGo, hw, hown]
        rw [hsame]
        exact ⟨full, h, .refl k d⟩
      | some c => exact ⟨full ++ [c], h.letGo hw hs (hfull c hown)⟩
    have ho' : ((d.letGo w k).collector k).options.Rolls (d.letGo w k).capacity := by
      rwa [hletGo.options, hletGo.capacity]
    obtain ⟨d₁, d₂, rest, hrent, hagree, hlined, hthinned, hroom, hwriters⟩ := hidle.rentChunk ho'
    have hw₁ : d₁.writer? w = some { s with chunk := none } := by
      rw [writer?, hwriters, ← writer?, writer?_letGo hw]
    have hk₁ : k < d₁.collectors.size := by
      rwa [(hletGo.trans hthinned).moves.size]
    obtain ⟨hheld, hstill, hempty⟩ := hlined.hold hk₁ hw₁ hs hroom
    have hsame := hagree.modifyWriter_congr w fun s =>
      { s with chunk := some (d₁.enterChunk k).1 }
    refine ⟨_, rest, (d₁.enterChunk k).1, ?_, hheld.alike hsame.toAlike, ?_,
      ((hletGo.trans hthinned).trans hstill).trans (.agree hsame)⟩
    · rw [heq, renewChunk, hrent]
    · have hzero : ((d₂.modifyWriter w fun s =>
          { s with chunk := some (d₁.enterChunk k).1 }).chunk (d₁.enterChunk k).1).size = 0 := by
        rw [hsame.chunk]
        exact hempty
      rw [hzero]
      exact h.owned.capacity_pos

/-! ## Room for an event -/

/-- With no idle chunk there is room for an event: what the writer holds is less
than the event cap. -/
theorem hasEventRoom (h : Lined d k w [] (some c)) (hsize : (d.chunk c).size < d.capacity)
    (ho : (d.collector k).options.Rolls d.capacity) :
    (d.collector k).hasEventRoom = true := by
  cases hroom : (d.collector k).hasEventRoom with
  | true => rfl
  | false =>
    obtain ⟨hmax, hle⟩ := Collector.le_of_not_hasEventRoom h.counted hroom
    have hcap := ho.cap.resolve_left hmax
    have hheld := h.held
    simp only [List.length_nil, Nat.zero_mul, Option.elim_some] at hheld
    omega

/-- Giving up chunks comes to an end with room for an event. -/
theorem makeEventRoom (h : Lined d k w full (some c)) (hsize : (d.chunk c).size < d.capacity)
    (ho : (d.collector k).options.Rolls d.capacity) (hn : full.length ≤ n) :
    ∃ rest, Lined (makeEventRoom n d k) k w rest (some c) ∧
      Thinned k d (makeEventRoom n d k) ∧ (makeEventRoom n d k).chunk c = d.chunk c ∧
      ((makeEventRoom n d k).collector k).hasEventRoom = true := by
  induction n generalizing d full with
  | zero =>
    obtain rfl := List.length_eq_zero_iff.mp (Nat.le_zero.mp hn)
    exact ⟨[], h, .refl k d, rfl, h.hasEventRoom hsize ho⟩
  | succ n ih =>
    unfold Depot.makeEventRoom
    cases hroom : (d.collector k).hasEventRoom with
    | true => exact ⟨full, h, .refl k d, rfl, hroom⟩
    | false =>
      cases full with
      | nil => exact absurd (hroom.symm.trans (h.hasEventRoom hsize ho)) (by simp)
      | cons x rest =>
        obtain ⟨hmax, hle⟩ := Collector.le_of_not_hasEventRoom h.counted hroom
        have hcap := ho.cap.resolve_left hmax
        obtain ⟨d₁, hevict, hlined, hthinned, hchunk⟩ := h.evict fun b hb => by
          have := hb.events hmax
          omega
        have hsame := hchunk c hlined.ledgers_own
        rw [List.length_cons] at hn
        obtain ⟨rest', hlined', hthinned', hsame', hroom'⟩ := ih hlined
          (by rwa [hsame, hthinned.capacity]) (by rwa [hthinned.options, hthinned.capacity])
          (by omega)
        simp only [Bool.false_eq_true, if_false, hevict]
        exact ⟨rest', hlined', hthinned.trans hthinned', hsame'.trans hsame, hroom'⟩

/-- **An event is admitted**, with chunks given up for it at the event cap. -/
theorem admitEvent (h : Lined d k w full (some c)) (hsize : (d.chunk c).size < d.capacity)
    (ho : (d.collector k).options.Rolls d.capacity) :
    ∃ d₁ d₂ rest, d.admitEvent k = (true, d₂) ∧
      Agree (d₁.modifyCollector k Collector.countEvent) d₂ ∧ Lined d₁ k w rest (some c) ∧
      Thinned k d d₁ ∧ d₁.chunk c = d.chunk c := by
  cases hroom : (d.collector k).hasEventRoom with
  | true =>
    refine ⟨d, _, full, ?_, .refl _, h, .refl k d, rfl⟩
    simp [Depot.admitEvent, h.opened, hroom]
  | false =>
    have hlength : full.length ≤ (d.collector k).ledger.length := by
      rw [h.ledger]
      simp
    obtain ⟨rest, hlined, hthinned, hchunk, hroom'⟩ := h.makeEventRoom hsize ho hlength
    refine ⟨_, _, rest, ?_, agree_signal _ k .maxTotalEvents, hlined, hthinned, hchunk⟩
    simp [Depot.admitEvent, h.opened, hroom, ho.policy, hroom']

/-! ## The event -/

/-- An event that is written stands behind the others. -/
theorem accept (h : Lined d k w full (some c)) (hw : d.writer? w = some s)
    (hsize : (d.chunk c).size < d.capacity) (event : Event) :
    Lined (d.accept k w c event) k w full (some c) ∧
      (d.accept k w c event).kept k = d.kept k ++ [event] ∧
      (d.accept k w c event).held k = d.held k + 1 := by
  have hc : s.chunk = some c := by simpa [hw] using h.fills
  have hin := h.ledgers_own
  have hlt := h.owned.lt_size_of_ledgers hin
  obtain ⟨hcapacity, -⟩ := h.room c rfl
  have hfull : (d.chunk c).isFull = false := by
    rw [Chunk.isFull, hcapacity]
    exact decide_eq_false (Nat.not_le.mpr hsize)
  have hheld : (d.accept k w c event).held k = d.held k + 1 :=
    h.owned.length_contents_accept hin hfull k w event
  have hpushed : (d.accept k w c event).chunk c = (d.chunk c).push event :=
    chunk_modifyChunk (d := (d.modifyCollector k Collector.countEvent).modifyWriter w _) hlt
  refine ⟨⟨h.owned.accept hw hc event, ?_, slotted_accept h.slotted, ?_, ?_,
    (ledger_accept d k k w c event).trans h.ledger, fun x hx => ?_, fun x hx => ?_⟩, ?_, hheld⟩
  · rw [collector_accept, h.opened]
  · rw [eventCount_accept (Depot.lt_size_of_ledgers hin), h.counted, hheld, UInt64.ofNat_add]
    rfl
  · rw [writer?_accept, hw]
    exact hc
  · have hne : x ≠ c := fun heq => h.not_mem_full (heq ▸ hx)
    rw [chunk_accept_of_ne hne]
    exact h.filled x hx
  · obtain rfl := Option.some.inj hx
    rw [hpushed, Chunk.push, if_neg (by simp [hfull])]
    simp only [Chunk.size, Array.size_push] at hsize ⊢
    exact ⟨hcapacity, hsize⟩
  · have hledger : (d.collector k).ledger =
        full.map (LedgerEntry.mk · false) ++ ⟨c, true⟩ :: [] := h.ledger
    have hcontents := h.owned.contents_accept hledger hfull k w event
    have hevictions : (d.accept k w c event).evictions k = d.evictions k := rfl
    rw [kept, kept, hcontents, hevictions, contents, h.ledger]
    simp

/-- **An event is placed**, and what is held is one more than it was, or as
much as the caps leave. -/
theorem place (h : Lined d k w full own) (hk : k < d.collectors.size)
    (hw : d.writer? w = some s) (hs : s.collector = some k)
    (ho : (d.collector k).options.Rolls d.capacity) (em : Emission) (stamp : Int) :
    ∃ d' rest c, d.place w k em stamp = (true, d') ∧ Lined d' k w rest (some c) ∧
      d'.kept k = d.kept k ++ [s.stamped em stamp] ∧
      ∀ b, (d.collector k).options.Leaves d.capacity b → min (d.held k + 1) b ≤ d'.held k := by
  obtain ⟨d₁, full₁, c, hroom, hlined₁, hsize, hthinned₁⟩ := h.holdRoom hk hw hs ho
  obtain ⟨d₂, d₃, rest, hadmitted, hagree, hlined₂, hthinned₂, hchunk⟩ :=
    hlined₁.admitEvent (by rwa [hthinned₁.capacity])
      (by rwa [hthinned₁.options, hthinned₁.capacity])
  have hthinned := hthinned₁.trans hthinned₂
  -- the writer changed its chunk only
  have hw₁ : d₁.writer? w = some { s with chunk := some c } := by
    obtain ⟨-, x, hw₁, -, -⟩ := h.owned.holdRoom hw hs h.opened hroom
    have hx := hlined₁.fills
    rw [hw₁, Option.bind_some, Option.some.injEq] at hx
    rw [hw₁, hx]
  have hw₃ : d₃.writer? w = some { s with chunk := some c } := by
    obtain ⟨e, hturns, -, -, hcounted⟩ := admitEvent_true hadmitted
    exact ((hcounted.writer?_eq w).trans (hturns.writer? w)).trans hw₁
  have hw₂ : d₂.writer? w = some { s with chunk := some c } :=
    (hagree.writer?_eq w).symm.trans hw₃
  have hsize₂ : (d₂.chunk c).size < d₂.capacity := by rwa [hchunk, hthinned.capacity]
  obtain ⟨hlined, hkept, hheld⟩ := hlined₂.accept hw₂ hsize₂ (s.stamped em stamp)
  have hsame : Agree (d₂.accept k w c (s.stamped em stamp))
      (d₃.post w c (s.stamped em stamp)) :=
    (hagree.modifyWriter_congr w _).modifyChunk_congr c _
  have hroom₃ : (d₃.chunk c).isFull = false := by
    have hcapacity := (hlined₂.room c rfl).1
    have hchunk₃ : d₃.chunk c = d₂.chunk c := hagree.chunk c
    rw [Chunk.isFull, hchunk₃, hcapacity]
    exact decide_eq_false (Nat.not_le.mpr hsize₂)
  refine ⟨d₃.post w c (s.stamped em stamp), rest, c, ?_, hlined.alike hsame.toAlike, ?_,
    fun b hb => ?_⟩
  · simp only [Depot.place, hroom, hadmitted, append, hw₃, hroom₃]
    rfl
  · rw [kept, hsame.contents, hsame.evictions, ← kept, hkept, hthinned.kept]
  · have hheld' : (d₃.post w c (s.stamped em stamp)).held k = d₂.held k + 1 := by
      rw [Depot.held, hsame.contents, ← Depot.held, hheld]
    rcases hthinned.held with heq | hleaves
    · omega
    · have := hleaves b hb
      omega

end Lined

end Depot

end EventTrace
