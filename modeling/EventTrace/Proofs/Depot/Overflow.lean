import EventTrace.Proofs.Depot.Counters
import EventTrace.Proofs.Depot.Sparing
/-!
# Depot — what a write costs

At a cap that drops the oldest, a write may cost a session a chunk, twice: as
its writer needs a chunk, and as the event is admitted. It costs no more than
one chunk with events, the oldest that no writer holds, and that only if the
event is then written (`Costs`): once events were given up there is room for
one more, since those given up were counted.
-/

namespace EventTrace

namespace Depot

variable {b d d' e e' : Depot} {c : ChunkId} {k j : CollectorId} {w : WriterId} {s : Writer}
  {F G : List CollectorId} {n : Nat} {events : List Event}

/-! ## Who holds what -/

/-- A chunk that a writer holds. -/
def IsHeld (d : Depot) (c : ChunkId) : Prop := ∃ v s, d.writer? v = some s ∧ s.chunk = some c

/-- A chunk that a writer holds all through a write of `w`, which lets its
own chunk go if that is full. -/
def HeldThrough (d : Depot) (w : WriterId) (c : ChunkId) : Prop :=
  ∃ v s, d.writer? v = some s ∧ s.chunk = some c ∧ (v = w → (d.chunk c).isFull = false)

/-- The events of the oldest chunk of a session that has events and that no
writer holds through a write. -/
def OldestUnheld (d : Depot) (w : WriterId) (k : CollectorId) (events : List Event) : Prop :=
  ∃ pre c post, d.filled k = pre ++ (c, events) :: post ∧ ¬ d.HeldThrough w c ∧
    ∀ p ∈ pre, d.HeldThrough w p.1

/-- The writer has let go what it will not hold through its write, so far as
chunks with events are concerned. -/
def Readied (b : Depot) (w : WriterId) (k : CollectorId) (e : Depot) : Prop :=
  ∀ c events, (c, events) ∈ b.filled k → (e.IsHeld c ↔ b.HeldThrough w c)

namespace Readied

theorem of_writers (h : Readied b w k e) (hwriters : e'.writers = e.writers) :
    Readied b w k e' := by
  intro c events hc
  rw [← h c events hc, IsHeld, IsHeld]
  simp only [writer?, hwriters]

/-- A writer that has room keeps its chunk. -/
theorem of_room (hw : b.writer? w = some s) (hc : s.chunk = some c)
    (hfull : (b.chunk c).isFull = false) : Readied b w k b := by
  intro x events _
  refine ⟨fun ⟨v, r, hv, hx⟩ => ⟨v, r, hv, hx, ?_⟩, fun ⟨v, r, hv, hx, _⟩ => ⟨v, r, hv, hx⟩⟩
  rintro rfl
  rw [hw, Option.some.injEq] at hv
  rw [← hv, hc, Option.some.injEq] at hx
  rwa [← hx]

/-- A writer that has no room has let its chunk go. -/
theorem letGo (hw : b.writer? w = some s)
    (hfull : ∀ c, s.chunk = some c → (b.chunk c).isFull = true) (j : CollectorId) :
    Readied b w k (b.letGo w j) := by
  intro c events _
  constructor
  · rintro ⟨v, r, hv, hc⟩
    by_cases hvw : v = w
    · subst hvw
      rw [writer?_letGo hw, Option.some.injEq] at hv
      rw [← hv] at hc
      exact absurd hc (by simp)
    · rw [writer?_letGo_of_ne hvw] at hv
      exact ⟨v, r, hv, hc, fun heq => absurd heq hvw⟩
  · rintro ⟨v, r, hv, hc, hroom⟩
    by_cases hvw : v = w
    · subst hvw
      rw [hw, Option.some.injEq] at hv
      exact absurd ((hfull c (hv ▸ hc)).symm.trans (hroom rfl)) (by simp)
    · exact ⟨v, r, (writer?_letGo_of_ne hvw).trans hv, hc⟩

/-- A chunk taken up is none of those with events. -/
theorem hold (h : Readied b w k e) (howned : Owned e) (hfilled : e.filled k = b.filled k)
    (hw : e.writer? w = some s) (hs : s.chunk = none) (j : CollectorId) :
    Readied b w k (e.hold w j) := by
  intro c events hc
  rw [← h c events hc]
  have hfresh : c ≠ (e.enterChunk j).1 := by
    rintro rfl
    rw [← hfilled, filled, List.mem_filter, List.mem_map] at hc
    obtain ⟨⟨entry, -, hentry⟩, hevents⟩ := hc
    simp only [Prod.mk.injEq] at hentry
    obtain ⟨hchunk, rfl⟩ := hentry
    rw [hchunk, howned.events_fresh] at hevents
    exact absurd hevents (by simp)
  constructor
  · rintro ⟨v, r, hv, hc⟩
    by_cases hvw : v = w
    · subst hvw
      rw [writer?_hold hw, Option.some.injEq] at hv
      rw [← hv, Option.some.injEq] at hc
      exact absurd hc.symm hfresh
    · rw [writer?_hold_of_ne hvw] at hv
      exact ⟨v, r, hv, hc⟩
  · rintro ⟨v, r, hv, hc⟩
    by_cases hvw : v = w
    · subst hvw
      rw [hw, Option.some.injEq] at hv
      rw [← hv, hs] at hc
      exact absurd hc (by simp)
    · exact ⟨v, r, (writer?_hold_of_ne hvw).trans hv, hc⟩

end Readied

/-! ## One eviction -/

/-- What an open session has given up no one holds. -/
theorem Stocked.not_isHeld (h : Stocked F G n e) (hG : k ∉ G) {pre post : List LedgerEntry}
    (hledger : (e.collector k).ledger = pre ++ ⟨c, false⟩ :: post) : ¬ e.IsHeld c := by
  rintro ⟨v, s, hv, hc⟩
  have hmem : ⟨c, false⟩ ∈ (e.collector k).ledger := by
    rw [hledger]
    exact List.mem_append_right _ List.mem_cons_self
  cases hs : s.collector with
  | none => exact absurd ((h.unseated v s hv hs).symm.trans hc) (by simp)
  | some i =>
    have hseat : Seat e v i s.thread c := ⟨s, hv, hs, rfl, hc⟩
    obtain rfl := h.own v i _ c k hseat (ledgers_of_mem hmem)
    -- its writer's entry is active, and the chunk has one entry only
    have hnodup := nodup_ledger h.owned.ledgered_le k
    have hsame := List.inj_on_of_nodup_map hnodup hmem (h.seated v k _ c hseat hG) rfl
    exact absurd (congrArg LedgerEntry.active hsame) (by simp)

/-- Events given up leave room for one. -/
theorem Stocked.hasEventRoom_evict (h : Stocked F G n e) (hF : k ∉ F) (hG : k ∉ G)
    {pre post : List LedgerEntry} (hevict : e.evictOldest? k = some e')
    (hledger : (e.collector k).ledger = pre ++ ⟨c, false⟩ :: post)
    (hcontents : e'.contents k = (pre ++ post).map fun entry =>
      (e.chunk entry.chunk).events.toList)
    (hevents : (e.chunk c).events ≠ #[]) : (e'.collector k).hasEventRoom = true := by
  have hsheds := Sheds.of_evict hevict k
  have hcounted : (e'.collector k).eventCount = UInt64.ofNat (e'.held k) :=
    hsheds.counted (h.counted k hG)
  have hheld : e.held k = e'.held k + (e.chunk c).events.size :=
    Sheds.held_of_gaveUp hledger hcontents
  have hpos : 0 < (e.chunk c).events.size := Array.size_pos_iff.mpr hevents
  obtain ⟨m, -, hcovers⟩ := h.covered k hF
  rw [Collector.hasEventRoom, hsheds.options, hcounted]
  by_cases hmax : (e.collector k).options.maxTotalEvents = 0
  · simp [hmax]
  · simp only [Bool.or_eq_true, beq_iff_eq, decide_eq_true_eq]
    refine .inr ?_
    rcases Nat.lt_or_ge (e.collector k).options.maxTotalEvents (2 ^ 64) with hword | hword
    · have hle := hcovers.held_le.trans (hcovers.cap hmax hword)
      rw [UInt64.toNat_ofNat', Nat.mod_eq_of_lt (by omega)]
      omega
    · exact Nat.lt_of_lt_of_le (UInt64.toNat_lt _) hword

/-- What a write of `w` in session `j` has cost session `k` so far: nothing,
or one chunk with events, and then there is room for an event. -/
inductive Costs (w : WriterId) (j k : CollectorId) (b e : Depot) : Prop
  | nothing : Spares k none b e → Readied b w k e → Costs w j k b e
  | chunk (lost : List (List Event)) (events : List Event) : OldestUnheld b w k events →
      e.evictions k = b.evictions k ++ lost → lost.filter (!·.isEmpty) = [events] → j = k →
      (e.collector k).hasEventRoom = true → Costs w j k b e

namespace Costs

/-- What spares the session costs nothing more. -/
theorem then_none (h : Costs w j k b e) (h' : Spares k none e e')
    (hready : Spares k none b e → Readied b w k e → Readied b w k e') : Costs w j k b e' := by
  cases h with
  | nothing hs hr => exact .nothing (h'.after hs) (hready hs hr)
  | chunk lost events holdest hevictions hlost hjk hroom =>
    obtain ⟨n, hn⟩ := h'.evictions
    refine .chunk (lost ++ List.replicate n []) events holdest ?_ ?_ hjk
      (h'.hasEventRoom.trans hroom)
    · rw [hn, hevictions, List.append_assoc]
    · rw [List.filter_append, hlost]
      simp

/-- **The first eviction costs an empty chunk, or the oldest that no one
holds.** -/
theorem evict (h : Stocked F G n e) (hF : k ∉ F) (hG : k ∉ G)
    (hopen : (e.collector j).closed = false) (hs : Spares k none b e) (hr : Readied b w k e)
    (hevict : e.evictOldest? j = some e') : Costs w j k b e' := by
  have hwriters := writers_evictOldest? hevict
  by_cases hkj : k = j
  · subst hkj
    obtain ⟨c, pre, post, hledger, hpre, hgiven, hcontents, hevictions⟩ := gaveUp_evict hevict
    by_cases hempty : (e.chunk c).events = #[]
    · have hspared := Spares.evict_of_empty hevict hledger hgiven hevictions hempty
      exact .nothing (hspared.after hs) (hr.of_writers hwriters)
    · obtain ⟨m, hm⟩ := hs.evictions
      have hroom := h.hasEventRoom_evict hF hG hevict hledger hcontents hempty
      obtain ⟨older, younger, hfilled, holder⟩ := filled_of_ledger hledger hempty
      rw [hs.filled] at hfilled
      refine .chunk (List.replicate m [] ++ [(e.chunk c).events.toList])
        (e.chunk c).events.toList ⟨older, c, younger, hfilled, ?_, fun p hp => ?_⟩
        (by rw [hevictions, hm, List.append_assoc]) (by simp [hempty]) rfl hroom
      · rw [← hr c _ (by rw [hfilled]; exact List.mem_append_right _ List.mem_cons_self)]
        exact h.not_isHeld hG hledger
      · -- whatever is older and has events is active, so its writer holds it
        obtain ⟨entry, hentry, hchunk, hevents⟩ := holder p hp
        have hactive : ⟨entry.chunk, true⟩ ∈ (e.collector k).ledger := by
          rw [hledger, ← hpre entry hentry]
          exact List.mem_append_left _ hentry
        obtain ⟨v, t, s, hv, -, -, hc⟩ := h.manned k entry.chunk hG hopen hactive hevents
        rw [← hr p.1 p.2 (by rw [hfilled]; exact List.mem_append_left _ hp), ← hchunk]
        exact ⟨v, s, hv, hc⟩
  · exact .nothing ((Spares.evict_of_ne hevict hkj).after hs) (hr.of_writers hwriters)

end Costs

/-! ## A chunk to write to -/

namespace Spares

/-- Room made for a chunk in another session. -/
theorem makeChunkRoom_of_ne (hk : k ≠ j) (n : Nat) (d : Depot) :
    Spares k none d (makeChunkRoom n d j).2 := by
  induction n generalizing d with
  | zero => exact .refl k d
  | succ n ih =>
    unfold Depot.makeChunkRoom
    cases hevict : d.evictOldest? j with
    | none => exact .refl k d
    | some e =>
      have hspared := evict_of_ne hevict hk
      dsimp only
      split
      · exact hspared
      · exact (ih e).after hspared

end Spares

theorem signal_modifyWriter (d : Depot) (j : CollectorId) (reason : Reason) (w : WriterId)
    (f : Writer → Writer) :
    (d.signal j reason).modifyWriter w f = (d.modifyWriter w f).signal j reason := by
  unfold signal
  by_cases hover : (d.collector j).losses.overflowed = true
  · rw [if_pos hover]
    exact (if_pos hover).symm
  · rw [if_neg hover]
    exact (if_neg hover).symm

/-- A writer keeps a chunk with room, and asks for another if it has none. -/
theorem holdRoom_eq (j : CollectorId) (hw : d.writer? w = some s) :
    (∃ c, s.chunk = some c ∧ (d.chunk c).isFull = false ∧ d.holdRoom w j = (true, d)) ∨
      (∀ c, s.chunk = some c → (d.chunk c).isFull = true) ∧
        d.holdRoom w j = d.renewChunk w j := by
  simp only [holdRoom, hw, Option.bind_some]
  cases hc : s.chunk with
  | none => exact .inr ⟨fun c hsome => absurd hsome (by simp), rfl⟩
  | some c =>
    cases hfull : (d.chunk c).isFull with
    | false => exact .inl ⟨c, rfl, hfull, by simp [hfull]⟩
    | true =>
      refine .inr ⟨fun x hx => ?_, by simp [hfull]⟩
      rw [← Option.some.inj hx, hfull]

namespace Costs

/-- Room for a chunk costs one eviction at most, and none if it is not
made. -/
theorem makeChunkRoom (h : Stocked F G n e) (hF : k ∉ F) (hG : k ∉ G)
    (hopen : (e.collector j).closed = false) (hfull : (e.collector j).hasChunkRoom = false)
    (hs : Spares k none b e) (hr : Readied b w k e) :
    Costs w j k b (makeChunkRoom (e.collector j).ledger.length e j).2 ∧
      ((makeChunkRoom (e.collector j).ledger.length e j).1 = false →
        Spares k none b (makeChunkRoom (e.collector j).ledger.length e j).2) := by
  by_cases hkj : k = j
  · subst hkj
    rcases makeChunkRoom_of_slotted (h.slotted k hF) hfull with
      ⟨-, hmade⟩ | ⟨e', hevict, hmade⟩
    · rw [hmade]
      exact ⟨.nothing hs hr, fun _ => hs⟩
    · rw [hmade]
      exact ⟨.evict h hF hG hopen hs hr hevict, fun hfalse => absurd hfalse (by simp)⟩
  · have hspared := (Spares.makeChunkRoom_of_ne hkj (e.collector j).ledger.length e).after hs
    have hwriters := (turns_makeChunkRoom (e.collector j).ledger.length hopen).1.writers
    exact ⟨.nothing hspared (hr.of_writers hwriters), fun _ => hspared⟩

/-- A chunk taken up costs nothing more. -/
theorem hold (h : Costs w j k b e) (howned : Owned e) (hw : e.writer? w = some s)
    (hc : s.chunk = none) : Costs w j k b (e.hold w j) :=
  h.then_none (.hold howned w j k) fun hs hr => hr.hold howned hs.filled hw hc j

/-- A rental that is refused has cost nothing. -/
theorem rentChunk_none (h : Stocked F G n e) (hF : k ∉ F) (hG : k ∉ G)
    (hs : Spares k none b e) (hr : Readied b w k e) (hrent : e.rentChunk j = (none, d')) :
    Spares k none b d' := by
  unfold rentChunk at hrent
  split at hrent
  · simp only [Prod.mk.injEq, true_and] at hrent
    exact hrent ▸ hs
  · next hopen =>
    rw [Bool.not_eq_true] at hopen
    split at hrent
    · simp at hrent
    · next hfull =>
      rw [Bool.not_eq_true] at hfull
      unfold rentAtCap at hrent
      split at hrent
      · simp only [Prod.mk.injEq, true_and] at hrent
        exact hrent ▸ (Spares.signal e j k _).after hs
      · simp only [Prod.mk.injEq, true_and] at hrent
        exact hrent ▸ (Spares.close _ j k).after ((Spares.signal e j k _).after hs)
      · have hmade := makeChunkRoom h hF hG hopen hfull hs hr
        split at hrent
        · next thinned hroom =>
          rw [hroom] at hmade
          simp only [Prod.mk.injEq, true_and] at hrent
          exact hrent ▸ (Spares.signal thinned j k _).after (hmade.2 rfl)
        · simp at hrent

/-- **A rental costs one eviction at most.** -/
theorem rentChunk_some (h : Stocked F G n e) (hF : k ∉ F) (hG : k ∉ G)
    (hs : Spares k none b e) (hr : Readied b w k e) (hw : e.writer? w = some s)
    (hc : s.chunk = none) (hrent : e.rentChunk j = (some c, d')) :
    Costs w j k b (d'.modifyWriter w fun s => { s with chunk := some c }) := by
  unfold rentChunk at hrent
  split at hrent
  · simp at hrent
  · next hopen =>
    rw [Bool.not_eq_true] at hopen
    split at hrent
    · simp only [Prod.mk.injEq, Option.some.injEq] at hrent
      obtain ⟨rfl, rfl⟩ := hrent
      exact (Costs.nothing hs hr).hold h.owned hw hc
    · next hfull =>
      rw [Bool.not_eq_true] at hfull
      unfold rentAtCap at hrent
      split at hrent
      · simp at hrent
      · simp at hrent
      · have hmade := (makeChunkRoom h hF hG hopen hfull hs hr).1
        have hturns := (turns_makeChunkRoom (e.collector j).ledger.length hopen).1
        split at hrent
        · simp at hrent
        · next thinned hroom =>
          rw [hroom] at hmade hturns
          simp only [Prod.mk.injEq, Option.some.injEq] at hrent
          obtain ⟨rfl, rfl⟩ := hrent
          -- the chunk is taken up before or after the overflow is noted
          have howned := h.owned.moves (Moves.of_turns hturns)
          have hheld := hmade.hold howned ((hturns.writer? w).trans hw) hc
          rw [signal_modifyWriter]
          exact hheld.then_none (.signal _ j k _) fun _ hr =>
            hr.of_writers (agree_signal _ j _).sameWriters

/-- A writer that is refused a chunk has cost nothing. -/
theorem renewChunk_false (h : Stocked F G n b) (hF : k ∉ F) (hG : k ∉ G)
    (hw : b.writer? w = some s) (hs : s.collector = some j)
    (hfull : ∀ c, s.chunk = some c → (b.chunk c).isFull = true)
    (hrenew : b.renewChunk w j = (false, d')) : Spares k none b d' := by
  unfold renewChunk at hrenew
  split at hrenew
  · next hrent =>
    simp only [Prod.mk.injEq, true_and] at hrenew
    exact hrenew ▸ rentChunk_none (h.move (.letGo hw hs)) hF hG (.letGo h.owned hw hs k)
      (.letGo hw hfull j) hrent
  · simp at hrenew

theorem renewChunk_true (h : Stocked F G n b) (hF : k ∉ F) (hG : k ∉ G)
    (hw : b.writer? w = some s) (hs : s.collector = some j)
    (hfull : ∀ c, s.chunk = some c → (b.chunk c).isFull = true)
    (hrenew : b.renewChunk w j = (true, e)) : Costs w j k b e := by
  unfold renewChunk at hrenew
  split at hrenew
  · simp at hrenew
  · next hrent =>
    simp only [Prod.mk.injEq, true_and] at hrenew
    exact hrenew ▸ rentChunk_some (h.move (.letGo hw hs)) hF hG (.letGo h.owned hw hs k)
      (.letGo hw hfull j) (writer?_letGo hw) rfl hrent

/-- A writer that finds no room has cost nothing. -/
theorem holdRoom_false (h : Stocked F G n b) (hF : k ∉ F) (hG : k ∉ G)
    (hw : b.writer? w = some s) (hs : s.collector = some j)
    (hroom : b.holdRoom w j = (false, d')) : Spares k none b d' := by
  rcases holdRoom_eq j hw with ⟨c, -, -, heq⟩ | ⟨hfull, heq⟩
  · rw [heq] at hroom
    simp at hroom
  · exact renewChunk_false h hF hG hw hs hfull (heq ▸ hroom)

/-- **Seeing to room costs one eviction at most.** -/
theorem holdRoom_true (h : Stocked F G n b) (hF : k ∉ F) (hG : k ∉ G)
    (hw : b.writer? w = some s) (hs : s.collector = some j)
    (hroom : b.holdRoom w j = (true, e)) : Costs w j k b e := by
  rcases holdRoom_eq j hw with ⟨c, hc, hfull, heq⟩ | ⟨hfull, heq⟩
  · simp only [heq, Prod.mk.injEq, true_and] at hroom
    exact hroom ▸ .nothing (.refl k b) (.of_room hw hc hfull)
  · exact renewChunk_true h hF hG hw hs hfull (heq ▸ hroom)

end Costs

end Depot

end EventTrace
