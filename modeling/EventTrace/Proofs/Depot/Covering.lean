import EventTrace.Proofs.Depot.Balance
/-!
# Depot — what is counted covers what is held

The word that counts a session's events need not be the number of events it
holds: a writer whose chunk was given up under it goes on being counted. But
it covers that number, and keeps the event cap (`Covers`): nothing a session
gives up takes more off the one than off the other (`Sheds`), and an accepted
event adds to both. So taking off what is given up never wraps.
-/

namespace EventTrace

namespace Depot

variable {d d' e : Depot} {c : ChunkId} {k j : CollectorId} {w : WriterId} {s : Writer}
  {F : List CollectorId} {m : Nat}

/-! ## What is taken off -/

/-- As many events are taken off what a session counts as off what it
holds. -/
structure Sheds (k : CollectorId) (d d' : Depot) : Prop where
  options : (d'.collector k).options = (d.collector k).options
  shed : ∃ n, d.held k = d'.held k + n ∧
    (d.collector k).eventCount = (d'.collector k).eventCount + UInt64.ofNat n

namespace Sheds

theorem refl (k : CollectorId) (d : Depot) : Sheds k d d :=
  ⟨rfl, 0, rfl, (UInt64.add_zero _).symm⟩

theorem trans (h : Sheds k d d') (h' : Sheds k d' e) : Sheds k d e := by
  obtain ⟨n, hheld, hcount⟩ := h.shed
  obtain ⟨n', hheld', hcount'⟩ := h'.shed
  refine ⟨h'.options.trans h.options, n' + n, by omega, ?_⟩
  rw [hcount, hcount', UInt64.ofNat_add, UInt64.add_assoc]

theorem of_same (hoptions : (d'.collector k).options = (d.collector k).options)
    (h : Same k d d') : Sheds k d d' :=
  ⟨hoptions, 0, by rw [held, held, h.contents]; rfl,
    by rw [h.eventCount]; exact (UInt64.add_zero _).symm⟩

/-- What a session without one of its chunks holds the less. -/
theorem held_of_gaveUp {pre post : List LedgerEntry} {entry : LedgerEntry}
    (hledger : (d.collector k).ledger = pre ++ entry :: post)
    (hcontents : d'.contents k = (pre ++ post).map fun e => (d.chunk e.chunk).events.toList) :
    d.held k = d'.held k + (d.chunk entry.chunk).events.size := by
  rw [held, held, hcontents, contents, hledger]
  simp only [List.map_append, List.map_cons, List.flatten_append, List.flatten_cons,
    List.length_append, Array.length_toList]
  omega

/-- An eviction takes off the events of its chunk, whether the session is
closed or not. -/
theorem of_evict (hevict : d.evictOldest? j = some d') (k : CollectorId) : Sheds k d d' := by
  have hoptions := options_evictOldest? hevict k
  by_cases hk : k = j
  · subst hk
    obtain ⟨c, pre, post, hledger, -, hgiven, hcontents, -⟩ := gaveUp_evict hevict
    refine ⟨hoptions, _, held_of_gaveUp hledger hcontents, ?_⟩
    rw [hgiven]
    exact (UInt64.sub_add_cancel _ _).symm
  · exact of_same hoptions (same_evict hevict hk)

theorem of_change (hoptions : (d'.collector k).options = (d.collector k).options)
    (h : Change k d d') : Sheds k d d' := by
  cases h with
  | same hsame => exact of_same hoptions hsame
  | gaveUp c pre post hledger _ _ _ hcontents _ hcount =>
    refine ⟨hoptions, _, held_of_gaveUp hledger hcontents, ?_⟩
    rw [hcount]
    exact (UInt64.sub_add_cancel _ _).symm
  | entered hcontents _ hcount =>
    refine ⟨hoptions, 0, ?_, by rw [hcount]; exact (UInt64.add_zero _).symm⟩
    rw [held, held, hcontents, List.flatten_append, List.length_append]
    rfl

/-- What is counted stays what is held. -/
theorem counted (h : Sheds k d d')
    (hcount : (d.collector k).eventCount = UInt64.ofNat (d.held k)) :
    (d'.collector k).eventCount = UInt64.ofNat (d'.held k) := by
  obtain ⟨n, hheld, hshed⟩ := h.shed
  rw [hcount, hheld, UInt64.ofNat_add, UInt64.add_left_inj] at hshed
  exact hshed.symm

end Sheds

theorem Owned.sheds_moves (h : Owned d) (hm : Moves d d') (k : CollectorId) : Sheds k d d' := by
  induction hm with
  | refl => exact .refl k d
  | tail hmoves hm ih =>
    exact ih.trans (.of_change ((sameStaff_move hm).options k) ((h.moves hmoves).change hm k))

/-- A chunk entered, whoever takes it up, is of no event. -/
theorem Owned.sheds_enterChunk (h : Owned d) (j k : CollectorId) :
    Sheds k d (d.enterChunk j).2 := by
  have hoptions : ((d.enterChunk j).2.collector k).options = (d.collector k).options := by
    rw [collector_enterChunk]
  have hsheds : Sheds k d (d.hold d.writers.size j) :=
    .of_change hoptions (h.change_hold d.writers.size j k)
  exact ⟨hoptions, hsheds.shed⟩

/-! ## What covers -/

/-- So many events are counted, as many as are held or more, and no more than
the cap. -/
structure Covers (d : Depot) (k : CollectorId) (m : Nat) : Prop where
  word : (d.collector k).eventCount = UInt64.ofNat m
  held_le : d.held k ≤ m
  cap : (d.collector k).options.maxTotalEvents ≠ 0 →
    (d.collector k).options.maxTotalEvents < 2 ^ 64 →
    m ≤ (d.collector k).options.maxTotalEvents

namespace Covers

/-- A session that never was has counted nothing. -/
theorem of_ge (hk : d.collectors.size ≤ k) : Covers d k 0 := by
  have hdefault := collector_of_ge hk
  refine ⟨by rw [hdefault]; rfl, ?_, fun _ _ => Nat.zero_le _⟩
  rw [held, contents, hdefault]
  exact Nat.le_refl 0

/-- Bookkeeping, of which the options are no part, leaves what covers. -/
theorem of_same (h : Covers d k m) (hoptions : (d'.collector k).options = (d.collector k).options)
    (hcontents : d'.contents k = d.contents k)
    (hcount : (d'.collector k).eventCount = (d.collector k).eventCount) : Covers d' k m where
  word := hcount.trans h.word
  held_le := by
    rw [held, hcontents, ← held]
    exact h.held_le
  cap := by
    rw [hoptions]
    exact h.cap

theorem alike (h : Covers d k m) (ha : Alike d d') : Covers d' k m :=
  h.of_same (ha.options k) (ha.contents k) (ha.eventCount k)

/-- Where a cap or the length of the run bounds it, the word does not wrap. -/
theorem toNat_eventCount (h : Covers d k m)
    (hword : ((d.collector k).options.maxTotalEvents ≠ 0 ∧
      (d.collector k).options.maxTotalEvents < 2 ^ 64) ∨ m < 2 ^ 64) :
    (d.collector k).eventCount.toNat = m := by
  have hlt : m < 2 ^ 64 := by
    rcases hword with ⟨hmax, hword⟩ | hlt
    · exact Nat.lt_of_le_of_lt (h.cap hmax hword) hword
    · exact hlt
  rw [h.word, UInt64.toNat_ofNat', Nat.mod_eq_of_lt hlt]

/-- The word keeps the cap, however large that is. -/
theorem toNat_le (h : Covers d k m) (hmax : (d.collector k).options.maxTotalEvents ≠ 0) :
    (d.collector k).eventCount.toNat ≤ (d.collector k).options.maxTotalEvents := by
  rcases Nat.lt_or_ge (d.collector k).options.maxTotalEvents (2 ^ 64) with hword | hword
  · rw [h.toNat_eventCount (.inl ⟨hmax, hword⟩)]
    exact h.cap hmax hword
  · exact Nat.le_trans (Nat.le_of_lt (UInt64.toNat_lt _)) hword

/-- **What is given up never takes more than is counted.** -/
theorem sheds (h : Covers d k m) (hs : Sheds k d d') : ∃ m' ≤ m, Covers d' k m' := by
  obtain ⟨n, hheld, hcount⟩ := hs.shed
  have hle := h.held_le
  obtain ⟨m', rfl⟩ : ∃ m', m = m' + n := ⟨m - n, by omega⟩
  refine ⟨m', Nat.le_add_right m' n, ?_, by omega, ?_⟩
  · rw [h.word, UInt64.ofNat_add, UInt64.add_left_inj] at hcount
    exact hcount.symm
  · rw [hs.options]
    exact fun hmax hword => Nat.le_trans (Nat.le_add_right m' n) (h.cap hmax hword)

/-- **An event accepted where there is room is covered**, and keeps the cap. -/
theorem accept (h : Covers d k m) (hposted : Posted F d) (hw : d.writer? w = some s)
    (hs : s.collector = some j) (hc : s.chunk = some c) (hfull : (d.chunk c).isFull = false)
    (hroom : (d.collector j).hasEventRoom = true) (event : Event) :
    ∃ m' ≤ m + 1, Covers (d.accept j w c event) k m' := by
  have htried := Tried.of_accept hposted hw hs hc hfull event k
  have hgiven : (d.accept j w c event).givenUp k = d.givenUp k := rfl
  have hcount := htried.counted
  rw [hgiven, UInt64.add_assoc, UInt64.add_comm (UInt64.ofNat (d.givenUp k)),
    ← UInt64.add_assoc, UInt64.add_left_inj] at hcount
  have hheld := htried.held_le
  have hle := h.held_le
  refine ⟨m + if j = k then 1 else 0, by split <;> omega, ?_, by omega, ?_⟩
  · rw [hcount, h.word, UInt64.ofNat_add]
  · rw [collector_accept]
    intro hmax hword
    by_cases hjk : j = k
    · subst hjk
      simp only [Collector.hasEventRoom, Bool.or_eq_true, beq_iff_eq, decide_eq_true_eq] at hroom
      have hlt := hroom.resolve_left hmax
      rw [h.toNat_eventCount (.inl ⟨hmax, hword⟩)] at hlt
      rw [if_pos rfl]
      exact hlt
    · rw [if_neg hjk]
      exact h.cap hmax hword

end Covers

end Depot

end EventTrace
