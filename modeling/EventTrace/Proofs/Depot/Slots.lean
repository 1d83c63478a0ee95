import EventTrace.Proofs.Depot.Posting
import Mathlib.Data.List.Induction
/-!
# Depot — the count of chunks is that of the ledger

A session counts its chunks beside its ledger: one more as one is entered,
one less as one is given up. Whatever is asked of a depot, by hand or by
writers, the count stays that of the ledger and within the chunk cap
(`Collector.Slotted`), until the session is frozen: a freeze empties the
ledger and leaves the count.
-/

namespace EventTrace

open Depot

namespace Collector

/-- What a session's count of chunks is measured by. -/
def slots (s : Collector) : Nat × Nat × Options := (s.chunkCount, s.ledger.length, s.options)

/-- The count of chunks is that of the ledger, and within the chunk cap. -/
structure Slotted (s : Collector) : Prop where
  count : s.chunkCount = s.ledger.length
  cap : s.options.maxTotalChunks ≠ 0 → s.chunkCount ≤ s.options.maxTotalChunks

namespace Slotted

variable {s s' : Collector}

theorem new (o : Options) : Slotted { options := o } := ⟨rfl, fun _ => Nat.zero_le _⟩

theorem congr (h : Slotted s) (heq : s'.slots = s.slots) : Slotted s' := by
  simp only [slots, Prod.mk.injEq] at heq
  obtain ⟨hcount, hledger, hoptions⟩ := heq
  exact ⟨by rw [hcount, hledger, h.count], by rw [hcount, hoptions]; exact h.cap⟩

/-- A chunk entered where there is room is counted within the cap. -/
theorem enter (h : Slotted s) (hroom : s.hasChunkRoom = true) (c : ChunkId) :
    Slotted (s.enter c) where
  count := by simp [Collector.enter, h.count]
  cap hmax := by
    simp only [hasChunkRoom, Bool.or_eq_true, beq_iff_eq, decide_eq_true_eq] at hroom
    exact hroom.resolve_left hmax

/-- A chunk given up is counted no more. -/
theorem giveUp (h : Slotted s) {pre post : List LedgerEntry} {entry : LedgerEntry}
    (hledger : s.ledger = pre ++ entry :: post) (n : Nat) :
    Slotted (s.giveUp (pre ++ post) n) := by
  have hcount := h.count
  rw [hledger, List.length_append, List.length_cons] at hcount
  refine ⟨?_, fun hmax => Nat.le_trans (Nat.sub_le ..) (h.cap hmax)⟩
  simp only [Collector.giveUp, List.length_append]
  omega

/-- At the chunk cap the count is the cap. -/
theorem eq_of_full (h : Slotted s) (hfull : s.hasChunkRoom = false) :
    s.options.maxTotalChunks ≠ 0 ∧ s.chunkCount = s.options.maxTotalChunks := by
  simp only [hasChunkRoom, Bool.or_eq_false_iff, beq_eq_false_iff_ne, decide_eq_false_iff_not,
    Nat.not_lt] at hfull
  exact ⟨hfull.1, Nat.le_antisymm (h.cap hfull.1) hfull.2⟩

/-- One chunk given up is room for one. -/
theorem hasChunkRoom_giveUp (h : Slotted s) (hfull : s.hasChunkRoom = false)
    (rest : List LedgerEntry) (n : Nat) : (s.giveUp rest n).hasChunkRoom = true := by
  obtain ⟨hmax, hcount⟩ := h.eq_of_full hfull
  have hlt : s.chunkCount - 1 < s.options.maxTotalChunks := by omega
  simp [hasChunkRoom, Collector.giveUp, hlt]

end Slotted

end Collector

namespace Depot

variable {d d' : Depot} {c : ChunkId} {k j : CollectorId} {w : WriterId}

/-! ## Procedures -/

theorem Alike.slots (h : Alike d d') (k : CollectorId) :
    (d'.collector k).slots = (d.collector k).slots := by
  have hcore := congrArg Collector.slots (h.core k)
  exact hcore

theorem slots_modifyCollector {f : Collector → Collector} (hf : ∀ s, (f s).slots = s.slots)
    (k : CollectorId) : ((d.modifyCollector j f).collector k).slots = (d.collector k).slots :=
  congr_modifyCollector Collector.slots hf k

theorem slots_close (d : Depot) (j k : CollectorId) :
    ((d.close j).collector k).slots = (d.collector k).slots := by
  refine slots_modifyCollector ?_ k
  intro s
  rfl

theorem slots_markIdle (d : Depot) (j k : CollectorId) (c : ChunkId) :
    ((d.markIdle j c).collector k).slots = (d.collector k).slots := by
  refine slots_modifyCollector (fun s => ?_) k
  have hlength := congrArg List.length (Collector.map_chunk_markIdle c s.ledger)
  rw [List.length_map, List.length_map] at hlength
  rw [Collector.slots, Collector.slots, hlength]

theorem slots_giveBack (d : Depot) (c : ChunkId) (k : CollectorId) :
    ((d.giveBack c).2.collector k).slots = (d.collector k).slots := by
  rw [collector, giveBack_collectors, ← collector]

theorem slots_releaseChunk (d : Depot) (j k : CollectorId) (c : ChunkId) :
    ((d.releaseChunk j c).collector k).slots = (d.collector k).slots := by
  unfold releaseChunk
  split
  · exact slots_giveBack d c k
  · exact slots_markIdle d j k c

theorem slots_letGo (d : Depot) (w : WriterId) (j k : CollectorId) :
    ((d.letGo w j).collector k).slots = (d.collector k).slots := by
  unfold letGo
  split
  · rfl
  · exact slots_releaseChunk _ j k _

/-- Letting a chunk go makes no room for another. -/
theorem hasChunkRoom_letGo (d : Depot) (w : WriterId) (j k : CollectorId) :
    ((d.letGo w j).collector k).hasChunkRoom = (d.collector k).hasChunkRoom := by
  have hslots := slots_letGo d w j k
  simp only [Collector.slots, Prod.mk.injEq] at hslots
  rw [Collector.hasChunkRoom, Collector.hasChunkRoom, hslots.1, hslots.2.2]

theorem slotted_evict (hevict : d.evictOldest? j = some d') (h : (d.collector k).Slotted) :
    (d'.collector k).Slotted := by
  obtain ⟨c, pre, post, hledger, -, hgiven, hothers⟩ := collector_evictOldest? hevict
  by_cases hk : k = j
  · subst hk
    rw [hgiven]
    exact h.giveUp hledger _
  · rwa [hothers k hk]

theorem collector_take (d : Depot) (k : CollectorId) : d.take.2.collector k = d.collector k := by
  rw [collector, take_collectors, ← collector]

theorem slotted_enterChunk (hroom : (d.collector j).hasChunkRoom = true)
    (h : (d.collector k).Slotted) : ((d.enterChunk j).2.collector k).Slotted := by
  rcases collector_modifyCollector_cases d.take.2 j k (·.enter d.take.1) with hsame | hentered
  · exact hsame ▸ collector_take d k ▸ h
  · by_cases hk : k = j
    · subst hk
      have henter := h.enter hroom d.take.1
      rw [← collector_take, ← hentered] at henter
      exact henter
    · rwa [collector_enterChunk_of_ne hk]

/-- **Every move keeps the count.** -/
theorem slotted_move (hm : Move d d') (h : (d.collector k).Slotted) :
    (d'.collector k).Slotted := by
  cases hm with
  | turn j ht =>
    cases ht with
    | keep hagree => exact h.congr (hagree.slots k)
    | close => exact h.congr (slots_close d j k)
    | evict _ hevict => exact slotted_evict hevict h
  | hold _ _ _ _ hroom => exact slotted_enterChunk hroom h
  | letGo => exact h.congr (slots_letGo d _ _ k)
  | leave => exact h
  | vacate => exact h

theorem slotted_moves (hm : Moves d d') (h : (d.collector k).Slotted) :
    (d'.collector k).Slotted := by
  induction hm with
  | refl => exact h
  | tail _ hm ih => exact slotted_move hm ih

/-- **One eviction makes room for a chunk**, if there is one to be made. -/
theorem makeChunkRoom_of_slotted (h : (d.collector k).Slotted)
    (hfull : (d.collector k).hasChunkRoom = false) :
    (d.evictOldest? k = none ∧
        makeChunkRoom (d.collector k).ledger.length d k = (false, d)) ∨
      ∃ e, d.evictOldest? k = some e ∧
        makeChunkRoom (d.collector k).ledger.length d k = (true, e) := by
  obtain ⟨hmax, hcount⟩ := h.eq_of_full hfull
  obtain ⟨n, hn⟩ : ∃ n, (d.collector k).ledger.length = n + 1 :=
    Nat.exists_eq_add_one.mpr (by rw [← h.count]; omega)
  rw [hn, makeChunkRoom]
  cases hevict : d.evictOldest? k with
  | none => exact .inl ⟨rfl, rfl⟩
  | some e =>
    obtain ⟨c, pre, post, -, -, hgiven, -⟩ := collector_evictOldest? hevict
    refine .inr ⟨e, rfl, ?_⟩
    dsimp only
    rw [hgiven, h.hasChunkRoom_giveUp hfull, if_pos rfl]

/-! ## Operations -/

theorem slotted_accept {event : Event} (h : (d.collector k).Slotted) :
    ((d.accept j w c event).collector k).Slotted := by
  rw [collector_accept]
  exact h.congr rfl

theorem slotted_newCollector (o : Options) (h : (d.collector k).Slotted) :
    ((d.newCollector o).2.collector k).Slotted := by
  by_cases hk : k = d.collectors.size
  · rw [hk, collector_newCollector]
    exact .new o
  · rwa [collector_newCollector_of_ne hk]

theorem slotted_writeEnds {e : Emission} {now : Reading} {r : Bool × Depot}
    (hends : WriteEnds d w e now r) (h : (d.collector k).Slotted) :
    (r.2.collector k).Slotted := by
  cases hends with
  | closed _ hmoves => exact slotted_moves hmoves h
  | filtered => exact h
  | refused _ _ _ _ _ hbefore hrefuses hafter =>
    exact slotted_moves hafter ((slotted_moves hbefore h).congr (hrefuses.slots k))
  | written _ _ _ _ _ hbefore _ _ _ hagree =>
    exact (slotted_accept (slotted_moves hbefore h)).congr (hagree.slots k)

theorem slotted_call (howned : Owned d) {call : Call} (hk : k ∉ call.freezes)
    (h : (d.collector k).Slotted) : ((call.apply d).collector k).Slotted := by
  cases call with
  | newCollector o => exact slotted_newCollector o h
  | newWriter j thread name =>
    dsimp only [Call.apply]
    split
    · obtain ⟨d₁, hagree, heq⟩ := newWriter_eq d j thread name
      rw [heq]
      exact h.congr (hagree.slots k)
    · exact h
  | write w e now => exact slotted_writeEnds (howned.writeEnds w e now) h
  | detach w => exact slotted_moves (moves_detach d w) h
  | dropWriter w => exact slotted_moves (moves_dropWriter d w) h
  | close j => exact slotted_move (.turn j (.close d)) h
  | closeWriters j => exact h.congr ((agree_closeWriters d j).slots k)
  | freeze j =>
    have hj : k ≠ j := fun heq => hk (List.mem_singleton.mpr heq)
    rwa [Call.apply, (freeze_spec d j).2.others k hj]

theorem slotted_rent (h : (d.collector k).Slotted) : ((d.rent j).2.collector k).Slotted := by
  cases hrent : d.rent j with
  | mk o d' =>
    cases o with
    | none => exact slotted_moves (Moves.of_turns (rent_none hrent)) h
    | some r =>
      obtain ⟨d₁, d₂, hturns, -, hroom, hagree, -, rfl⟩ := rent_some hrent
      have h₁ := slotted_moves (Moves.of_turns hturns) h
      exact (slotted_enterChunk hroom h₁).congr (hagree.slots k)

theorem slotted_admitEvent (h : (d.collector k).Slotted) :
    ((d.admitEvent j).2.collector k).Slotted := by
  cases hclosed : (d.collector j).closed with
  | true => rwa [admitEvent_of_closed hclosed]
  | false =>
    cases hadmit : d.admitEvent j with
    | mk ok d' =>
      cases ok with
      | true =>
        obtain ⟨d₁, hturns, -, -, hagree⟩ := admitEvent_true hadmit
        have h₁ := slotted_moves (Moves.of_turns hturns) h
        have hcounted : ((d₁.modifyCollector j Collector.countEvent).collector k).Slotted :=
          h₁.congr (slots_modifyCollector (f := Collector.countEvent) (fun _ => rfl) k)
        exact hcounted.congr (hagree.slots k)
      | false =>
        obtain ⟨d₁, reason, hbefore, hafter⟩ := admitEvent_false hadmit hclosed
        have h₁ := slotted_moves (Moves.of_turns hbefore) h
        have h₂ := h₁.congr ((refuses_recordDropped d₁ j reason).toAlike.slots k)
        exact slotted_moves (Moves.of_turns hafter) h₂

/-- **Every operation keeps the count**, short of a freeze. -/
theorem slotted_op (howned : Owned d) {o : Op} (ho : o ≠ .call (.freeze k))
    (h : (d.collector k).Slotted) : ((o.apply d).collector k).Slotted := by
  cases o with
  | call call =>
    refine slotted_call howned ?_ h
    exact fun hk => ho (congrArg Op.call (Call.eq_of_mem_freezes hk))
  | rent j => exact slotted_rent h
  | writeRental r e =>
    dsimp only [Op.apply]
    unfold writeRental
    split <;> exact h
  | release j r =>
    dsimp only [Op.apply]
    unfold release
    split
    · exact h.congr (slots_releaseChunk _ j k _)
    · exact h
  | dropRental r => exact h
  | shareRental r =>
    dsimp only [Op.apply]
    unfold shareRental
    split <;> exact h
  | markIdle j c => exact h.congr (slots_markIdle d j k c)
  | takeShare => exact collector_take d k ▸ h
  | makeShare capacity => exact h
  | cloneShare q =>
    dsimp only [Op.apply]
    split <;> exact h
  | dropShare q => exact h
  | resetShare q =>
    dsimp only [Op.apply]
    unfold resetShare
    split
    · split <;> exact h
    · exact h
  | returnShare q =>
    dsimp only [Op.apply]
    unfold returnShare
    split
    · exact h.congr (slots_giveBack _ _ k)
    · exact h
  | offerEvent j => exact slotted_admitEvent h
  | recordDropped j reason => exact h.congr ((refuses_recordDropped d j reason).toAlike.slots k)
  | recordSampledOut j => exact h.congr ((refuses_recordSampledOut d j).toAlike.slots k)
  | recordRateLimited j => exact h.congr ((refuses_recordRateLimited d j).toAlike.slots k)
  | nameThread j thread name => exact h.congr ((agree_nameThread d j thread name).slots k)
  | newLink => exact h
  | registerLink j l => exact h.congr ((agree_registerLink d j l).slots k)
  | closeLink l => exact h
  | screen w e arrival =>
    dsimp only [Op.apply]
    split <;> exact h
  | letGo w =>
    dsimp only [Op.apply]
    split
    · exact h.congr (slots_letGo d w _ k)
    · exact h
  | holdRoom w =>
    dsimp only [Op.apply]
    split
    · next j hj =>
      obtain ⟨s, hw, hs⟩ := Option.bind_eq_some_iff.mp hj
      exact slotted_moves (moves_holdRoom hw hs) h
    · exact h
  | evict j =>
    dsimp only [Op.apply]
    cases hevict : d.evictOldest? j with
    | none => exact h
    | some d' => exact slotted_evict hevict h

end Depot

/-! ## Runs -/

theorem runOps_concat (capacity : Nat) (ops : List Op) (o : Op) :
    runOps capacity (ops ++ [o]) = o.apply (runOps capacity ops) :=
  List.foldl_append

/-- **The count is that of the ledger after every run** that does not freeze
the session. -/
theorem slotted_runOps (capacity : Nat) {ops : List Op} {k : CollectorId}
    (hk : .call (.freeze k) ∉ ops) : ((runOps capacity ops).collector k).Slotted := by
  induction ops using List.reverseRecOn with
  | nil =>
    rw [runOps, List.foldl_nil, collector_of_ge (Nat.zero_le k)]
    exact .new {}
  | append_singleton ops o ih =>
    rw [List.mem_append, List.mem_singleton, not_or] at hk
    rw [runOps_concat]
    exact slotted_op (owned_runOps capacity ops) (Ne.symm hk.2) (ih hk.1)

end EventTrace
