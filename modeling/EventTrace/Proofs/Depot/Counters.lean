import EventTrace.Proofs.Depot.Feeding
/-!
# Depot — a session's counters and its ledger

A session counts its chunks and its events in two counters, beside the ledger
that has them. Until it is frozen, the one is the length of the ledger and
keeps the chunk cap, whatever is done by hand; the other covers the events of
the ledger and keeps the event cap, whatever is done by hand short of bringing
an event in; and it is their number, unless a chunk was marked idle under its
writer (`counters_match_ledger`). Then the chunk can be given up while the
writer goes on writing to it, and what it writes is counted and not held.
-/

namespace EventTrace

open Depot

/-! ## Runs of writers -/

/-- Writers that come, write and go bring in every event there is. -/
theorem throughWriters_calls (calls : List Call) : ThroughWriters (calls.map .call) := by
  intro o ho
  obtain ⟨c, -, rfl⟩ := List.mem_map.mp ho
  rfl

/-- They mark nothing idle but what they let go. -/
theorem tended_calls (capacity : Nat) (calls : List Call) (k : CollectorId) :
    Tended capacity (calls.map .call) k := by
  intro before c after heq _
  have hmark : Op.markIdle k c ∈ calls.map Op.call := by
    rw [heq]
    exact List.mem_append_right _ List.mem_cons_self
  obtain ⟨call, -, hcall⟩ := List.mem_map.mp hmark
  exact absurd hcall (by simp)

theorem freeze_mem_calls {calls : List Call} {k : CollectorId} :
    .call (.freeze k) ∈ calls.map Op.call ↔ .freeze k ∈ calls := by
  simp

/-! ## What a ledger has -/

namespace Depot

variable {d : Depot} {k : CollectorId}

theorem held_eq_sum (d : Depot) (k : CollectorId) :
    d.held k = ((d.collector k).ledger.map fun entry => (d.chunk entry.chunk).size).sum := by
  rw [held, contents, List.length_flatten, List.map_map]
  rfl

/-- No chunk of a ledger has more events than the session holds. -/
theorem size_le_held {entry : LedgerEntry} (h : entry ∈ (d.collector k).ledger) :
    (d.chunk entry.chunk).size ≤ d.held k := by
  obtain ⟨pre, post, hledger⟩ := List.append_of_mem h
  rw [held_eq_sum, hledger]
  simp only [List.map_append, List.map_cons, List.sum_append, List.sum_cons]
  omega

end Depot

/-! ## The counters -/

/-- **A session's counters match its ledger and keep its caps**, until it is
frozen. Chunks are counted one by one, after any run. Where events come in
through writers only, no cap is exceeded and no chunk has more events than are
counted, so that no eviction takes off more than there is, as long as the word
itself does not overflow; and the events of the ledger are counted one by one,
where no chunk is marked idle under its writer. -/
theorem counters_match_ledger (capacity : Nat) (ops : List Op) (k : CollectorId)
    (hk : .call (.freeze k) ∉ ops) :
    let d := runOps capacity ops
    let s := d.collector k
    let held := (s.ledger.map fun entry => (d.chunk entry.chunk).size).sum
    (s.chunkCount = s.ledger.length ∧
      (s.options.maxTotalChunks ≠ 0 → s.chunkCount ≤ s.options.maxTotalChunks)) ∧
    (ThroughWriters ops →
      (s.options.maxTotalEvents ≠ 0 → s.eventCount.toNat ≤ s.options.maxTotalEvents) ∧
      ((s.options.maxTotalEvents ≠ 0 ∧ s.options.maxTotalEvents < 2 ^ 64) ∨ ops.length < 2 ^ 64 →
        held ≤ s.eventCount.toNat ∧
          ∀ entry ∈ s.ledger, (d.chunk entry.chunk).size ≤ s.eventCount.toNat) ∧
      (Tended capacity ops k → s.eventCount = UInt64.ofNat held ∧
        ((s.options.maxTotalEvents ≠ 0 ∧ s.options.maxTotalEvents < 2 ^ 64) ∨ held < 2 ^ 64 →
          s.eventCount.toNat = held))) := by
  intro d s held
  have hheld : held = d.held k := (held_eq_sum d k).symm
  have hslotted := slotted_runOps capacity hk
  refine ⟨⟨hslotted.count, hslotted.cap⟩, fun hfed => ?_⟩
  obtain ⟨frozen, spoilt, hstocked, hfrozen, hspoilt⟩ := stocked_runOps capacity hfed
  have hout : k ∉ frozen := fun hin => hk (hfrozen k hin)
  obtain ⟨m, hm, hcovers⟩ := hstocked.covered k hout
  refine ⟨hcovers.toNat_le, fun hword => ?_, fun htended => ?_⟩
  · have hcount := hcovers.toNat_eventCount (hword.imp_right (Nat.lt_of_le_of_lt hm))
    rw [hheld, hcount]
    exact ⟨hcovers.held_le, fun entry hentry => (size_le_held hentry).trans hcovers.held_le⟩
  · have hkept : k ∉ spoilt := fun hin => (hspoilt k hin).elim hk fun hnot => hnot htended
    have hcounted : s.eventCount = UInt64.ofNat (d.held k) := hstocked.counted k hkept
    rw [hheld]
    refine ⟨hcounted, fun hword => ?_⟩
    have hlt : d.held k < 2 ^ 64 := by
      rcases hword with ⟨hmax, hword⟩ | hlt
      · exact Nat.lt_of_le_of_lt (hcovers.held_le.trans (hcovers.cap hmax hword)) hword
      · exact hlt
    rw [hcounted, UInt64.toNat_ofNat', Nat.mod_eq_of_lt hlt]

/-- Two writers of a session at both its caps: the third write gives up what
the first one wrote. -/
def bothCaps : List Call :=
  let e : Emission := { id := 7, kind := .instant }
  [.newCollector { maxTotalEvents := 2, maxTotalChunks := 2, policy := .dropOldest },
    .newWriter 0 1 none, .newWriter 0 2 none, .write 0 e ⟨1, 1⟩, .write 1 e ⟨2, 2⟩,
    .write 0 e ⟨3, 3⟩]

/-- Both counters show two, and the ledger has two chunks with an event
each. -/
theorem counters_match_ledger_bothCaps :
    let d := runOps 1 (bothCaps.map .call)
    (d.collector 0).ledger.length = 2 ∧ (d.collector 0).eventCount = 2 ∧
      ((d.collector 0).ledger.map fun entry => (d.chunk entry.chunk).size).sum = 2 := by
  intro d
  have hcount : (d.collector 0).eventCount = 2 := by decide
  have hkept : Op.call (.freeze 0) ∉ bothCaps.map Op.call := by
    rw [freeze_mem_calls]
    simp [bothCaps]
  obtain ⟨⟨hchunks, -⟩, hevents⟩ := counters_match_ledger 1 (bothCaps.map .call) 0 hkept
  obtain ⟨-, -, hexact⟩ := hevents (throughWriters_calls bothCaps)
  obtain ⟨-, hexact⟩ := hexact (tended_calls 1 bothCaps 0)
  refine ⟨hchunks.symm.trans (by decide), hcount, ?_⟩
  exact (hexact (.inl (by decide))).symm.trans (congrArg UInt64.toNat hcount)

/-- The key of a rental that was given back is used while a writer fills the
chunk, which is then given up under the writer. -/
def staleKey : List Op :=
  let e : Emission := { id := 7, kind := .instant }
  [.call (.newCollector { maxTotalChunks := 1, policy := .dropOldest }), .rent 0, .release 0 0,
    .call (.newWriter 0 1 none), .call (.write 0 e ⟨1, 1⟩), .markIdle 0 0, .rent 0,
    .call (.write 0 e ⟨2, 2⟩)]

/-- The last event is counted, and in no chunk of the ledger, though every
event came through a writer. -/
theorem eventCount_ne_held_staleKey :
    let d := runOps 4 staleKey
    (ThroughWriters staleKey ∧ .call (.freeze 0) ∉ staleKey) ∧
      (d.collector 0).eventCount.toNat ≠
        ((d.collector 0).ledger.map fun entry => (d.chunk entry.chunk).size).sum := by
  intro d
  refine ⟨⟨?_, by simp [staleKey]⟩, by decide⟩
  simp [ThroughWriters, staleKey, Op.feeds]

end EventTrace
