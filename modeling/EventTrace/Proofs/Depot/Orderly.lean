import EventTrace.Proofs.Depot.Freezing
import EventTrace.Proofs.Depot.Tenure
/-!
# Depot — orderly runs, and what an eviction may take

A key may be used after its chunk was recycled, and then it marks a chunk
idle that someone else writes to. In an orderly run this cannot happen: each
rental ends once, on the collector it came from, and a collector is frozen
only once it is closed. **An eviction of an orderly run never takes a chunk
that someone can still write to** (`exclusive_ownership`).
-/

namespace EventTrace

open Depot

/-! ## Orderly runs -/

/-- How far a rental has come. -/
inductive Stage where
  /-- Someone has write access. -/
  | held
  /-- Write access was given up, and the key not used yet. -/
  | unmarked
  | ended
deriving DecidableEq, Repr

/-- What is remembered of a rental. -/
structure Lease where
  /-- The collector it came from. -/
  collector : CollectorId
  stage : Stage
deriving DecidableEq, Repr

/-- Runs in which each rental ends at most once, on the collector it came
from: released, or given up and its key used once. Collectors are frozen once
they are closed. Anything else may happen in between. -/
inductive Orderly : List Lease → Depot → Prop
  | opened (capacity : Nat) : Orderly [] (.ofCapacity capacity)
  | plain {leases : List Lease} {d : Depot} (o : Op) :
      Orderly leases d → o.isPlain = true → Orderly leases (o.apply d)
  | frozen {leases : List Lease} {d : Depot} (k : CollectorId) :
      Orderly leases d → (d.collector k).closed = true → Orderly leases (d.freeze k).2
  | rented {leases : List Lease} {d d' : Depot} {k : CollectorId} {r : RentalId} :
      Orderly leases d → k < d.collectors.size → d.rent k = (some r, d') →
      Orderly (leases ++ [⟨k, .held⟩]) d'
  | refused {leases : List Lease} {d d' : Depot} {k : CollectorId} :
      Orderly leases d → d.rent k = (none, d') → Orderly leases d'
  | released {leases : List Lease} {d : Depot} {k : CollectorId} {r : RentalId} :
      Orderly leases d → leases[r]? = some ⟨k, .held⟩ →
      Orderly (leases.set r ⟨k, .ended⟩) (d.release k r)
  | dropped {leases : List Lease} {d : Depot} {k : CollectorId} {r : RentalId} :
      Orderly leases d → leases[r]? = some ⟨k, .held⟩ →
      Orderly (leases.set r ⟨k, .unmarked⟩) (d.dropRental r)
  | shared {leases : List Lease} {d : Depot} {k : CollectorId} {r : RentalId} :
      Orderly leases d → leases[r]? = some ⟨k, .held⟩ →
      Orderly (leases.set r ⟨k, .unmarked⟩) (d.shareRental r).2
  | marked {leases : List Lease} {d : Depot} {k : CollectorId} {r : RentalId} {h : Holding} :
      Orderly leases d → leases[r]? = some ⟨k, .unmarked⟩ → d.rentals[r]? = some h →
      Orderly (leases.set r ⟨k, .ended⟩) (d.markIdle k h.chunk)

/-- How often a chunk is rented while its rental is at a stage. -/
def Stage.grants : Stage → Nat
  | .held => 1
  | _ => 0

namespace Depot

variable {d d' : Depot} {c x : ChunkId} {k j : CollectorId} {r q : RentalId} {n : Nat}
  {leases : List Lease} {stage stage' : Stage}

/-! ## Leases and rentals -/

/-- A rental of a chunk that has not ended. -/
structure Runs (leases : List Lease) (d : Depot) (r : RentalId) (k : CollectorId)
    (c : ChunkId) (stage : Stage) : Prop where
  lease : leases[r]? = some ⟨k, stage⟩
  chunk : (d.rentals.map Holding.chunk)[r]? = some c
  going : stage ≠ .ended

/-- What holds in an orderly run: what is idle is not written to, and every
rental that has not ended stands. -/
structure Tenured (leases : List Lease) (d : Depot) : Prop where
  owned : Owned d
  idle : Idle d
  length : leases.length = d.rentals.size
  held : ∀ r k c, Runs leases d r k c .held → d.rental? r = some c
  standing : ∀ r k c stage, Runs leases d r k c stage → Standing d k c stage.grants
  distinct : ∀ r q k c stage stage', Runs leases d r k c stage → Runs leases d q k c stage' → r = q

namespace Tenured

/-- What disturbs no rental leaves every lease as it was. -/
theorem calm (h : Tenured leases d) (hcalm : Calm d d') (howned : Owned d') :
    Tenured leases d' := by
  have hruns : ∀ r k c stage, Runs leases d' r k c stage → Runs leases d r k c stage :=
    fun r k c stage hr => ⟨hr.lease, by rw [← hcalm.rentals]; exact hr.chunk, hr.going⟩
  refine ⟨howned, hcalm.idle h.idle, by rw [hcalm.rentals]; exact h.length, ?_,
    fun r k c stage hr => hcalm.standing k c _ (h.standing r k c stage (hruns r k c stage hr)),
    fun r q k c stage stage' hr hq => h.distinct r q k c stage stage' (hruns r k c stage hr)
      (hruns q k c stage' hq)⟩
  intro r k c hr
  rw [rental?, hcalm.rentals]
  exact h.held r k c (hruns r k c .held hr)

/-- A lease that has not ended is of some chunk. -/
theorem exists_runs (h : Tenured leases d) (hlease : leases[r]? = some ⟨k, stage⟩)
    (hgoing : stage ≠ .ended) : ∃ c, Runs leases d r k c stage := by
  have hr : r < d.rentals.size := by
    rw [← h.length]
    exact (List.getElem?_eq_some_iff.mp hlease).1
  exact ⟨d.rentals[r].chunk, hlease, by simp [hr], hgoing⟩

/-- A chunk that is rented, and another rental's chunk that is still in its
ledger, are two chunks. -/
theorem apart (h : Tenured leases d) (hr : d.rental? r = some c)
    (hq : Runs leases d q j x stage) (hne : q ≠ r) (hin : d.Ledgers j x) : x ≠ c := by
  rintro rfl
  have hrented := heldIn_of_rental? hr
  rcases h.standing q j x stage hq with ⟨-, -, hheld⟩ | ⟨hgone, -⟩
  · -- the chunk would be rented twice, or once too often for its stage
    cases stage with
    | held =>
      have hboth := h.owned.exclusive.one_rental x q r (h.held q j x hq) hr
      exact hne hboth
    | unmarked =>
      simp only [Stage.grants] at hheld
      omega
    | ended => exact hq.going rfl
  · exact hgone hin

/-- **One lease comes further**, and the others stand. -/
theorem advance (h : Tenured leases d) (hr : Runs leases d r k c stage) (hlater : stage' ≠ .held)
    (howned : Owned d') (hidle : Idle d')
    (hchunks : d'.rentals.map Holding.chunk = d.rentals.map Holding.chunk)
    (hheld : ∀ q ≠ r, d'.rental? q = d.rental? q)
    (hself : stage' ≠ .ended → Standing d' k c stage'.grants)
    (hothers : ∀ q ≠ r, ∀ j x s, Runs leases d q j x s → Standing d' j x s.grants) :
    Tenured (leases.set r ⟨k, stage'⟩) d' := by
  -- a lease that runs afterwards is the one that came further, or ran before
  have hruns : ∀ q j x s, Runs (leases.set r ⟨k, stage'⟩) d' q j x s →
      (q = r ∧ j = k ∧ x = c ∧ s = stage') ∨ (q ≠ r ∧ Runs leases d q j x s) := by
    intro q j x s hq
    have hchunk : (d.rentals.map Holding.chunk)[q]? = some x := by rw [← hchunks]; exact hq.chunk
    by_cases hqr : q = r
    · subst hqr
      have hlease := hq.lease
      rw [List.getElem?_set_self (List.getElem?_eq_some_iff.mp hr.lease).1, Option.some.injEq,
        Lease.mk.injEq] at hlease
      have hsame : x = c := by
        rw [hr.chunk, Option.some.injEq] at hchunk
        exact hchunk.symm
      exact .inl ⟨rfl, hlease.1.symm, hsame, hlease.2.symm⟩
    · have hlease := hq.lease
      rw [List.getElem?_set_ne (Ne.symm hqr)] at hlease
      exact .inr ⟨hqr, hlease, hchunk, hq.going⟩
  refine ⟨howned, hidle, ?_, ?_, ?_, ?_⟩
  · have hsize : d'.rentals.size = d.rentals.size := by
      simpa only [Array.size_map] using congrArg Array.size hchunks
    rw [List.length_set, h.length, hsize]
  · intro q j x hq
    rcases hruns q j x _ hq with ⟨-, -, -, hs⟩ | ⟨hqr, hq⟩
    · exact absurd hs.symm hlater
    · rw [hheld q hqr]
      exact h.held q j x hq
  · intro q j x s hq
    rcases hruns q j x s hq with ⟨-, rfl, rfl, rfl⟩ | ⟨hqr, hq'⟩
    · exact hself hq.going
    · exact hothers q hqr j x s hq'
  · intro q p j x s t hq hp
    rcases hruns q j x s hq with ⟨rfl, hj, hx, -⟩ | ⟨-, hq'⟩
    · rcases hruns p j x t hp with ⟨rfl, -, -, -⟩ | ⟨-, hp'⟩
      · rfl
      · rw [hj, hx] at hp'
        exact h.distinct q p k c stage t hr hp'
    · rcases hruns p j x t hp with ⟨rfl, hj, hx, -⟩ | ⟨-, hp'⟩
      · rw [hj, hx] at hq'
        exact h.distinct q p k c s stage hq' hr
      · exact h.distinct q p j x s t hq' hp'

/-! ## Rentals given up -/

theorem rental?_dropRental_of_ne (hne : q ≠ r) : (d.dropRental r).rental? q = d.rental? q := by
  simp only [rental?, dropRental, Array.getElem?_modify, if_neg (Ne.symm hne)]

theorem map_chunk_dropRental (d : Depot) (r : RentalId) :
    (d.dropRental r).rentals.map Holding.chunk = d.rentals.map Holding.chunk :=
  map_modify_of_eq (f := fun h => { h with held := false }) (fun _ => rfl) d.rentals r

/-- Giving up a rental lets one reference go. -/
theorem heldIn_dropRental (hr : d.rental? r = some c) (x : ChunkId) :
    heldIn (d.dropRental r).rentals x + (if c = x then 1 else 0) = heldIn d.rentals x := by
  obtain ⟨h, hh, hheld, rfl⟩ := rental?_eq_some.mp hr
  have hsum := heldIn_drop (c := x) hh
  rw [hheld, Bool.true_and] at hsum
  have hone : (h.chunk == x).toNat = if h.chunk = x then 1 else 0 := by
    by_cases hx : h.chunk = x <;> simp [hx]
  rwa [hone] at hsum

theorem idle_dropRental (hd : Idle d) (r : RentalId) : Idle (d.dropRental r) := by
  intro k c hmem
  have hwritable := hd k c hmem
  have hle : heldIn (d.dropRental r).rentals c ≤ heldIn d.rentals c := heldIn_drop_le _ r
  unfold writable at hwritable ⊢
  show _ + d.filling c = 0
  omega

/-- Another rental stands while one is given up. -/
theorem standing_dropRental (h : Tenured leases d) (hr : d.rental? r = some c)
    (hq : Runs leases d q j x stage) (hne : q ≠ r) :
    Standing (d.dropRental r) j x stage.grants := by
  rcases h.standing q j x stage hq with ⟨hmem, hfilling, hheld⟩ | hgone
  · refine .inl ⟨hmem, hfilling, ?_⟩
    have hxc := h.apart hr hq hne (ledgers_of_mem hmem)
    have hsum := heldIn_dropRental hr x
    rw [if_neg (Ne.symm hxc)] at hsum
    omega
  · exact .inr hgone

/-- A rental given up stands, and its chunk is written to by no one. -/
theorem standing_self (h : Tenured leases d) (hr : Runs leases d r k c .held) :
    Standing (d.dropRental r) k c 0 := by
  rcases h.standing r k c .held hr with ⟨hmem, hfilling, hheld⟩ | hgone
  · refine .inl ⟨hmem, hfilling, ?_⟩
    have hsum := heldIn_dropRental (h.held r k c hr) c
    rw [if_pos rfl, hheld] at hsum
    simp only [Stage.grants] at hsum
    omega
  · exact .inr hgone

theorem dropped (h : Tenured leases d) (hr : Runs leases d r k c .held) :
    Tenured (leases.set r ⟨k, .unmarked⟩) (d.dropRental r) :=
  h.advance hr (by simp) (h.owned.dropRental r) (idle_dropRental h.idle r)
    (map_chunk_dropRental d r) (fun _ hne => rental?_dropRental_of_ne hne)
    (fun _ => h.standing_self hr)
    (fun _ hne _ _ _ hq => h.standing_dropRental (h.held r k c hr) hq hne)

theorem released (h : Tenured leases d) (hr : Runs leases d r k c .held) :
    Tenured (leases.set r ⟨k, .ended⟩) (d.release k r) := by
  have hrental := h.held r k c hr
  have hsize := h.owned.lt_size_of_heldIn (.inl (heldIn_of_rental? hrental))
  -- the rental given up was the only one who could write
  have hfree : (d.dropRental r).writable c = 0 := by
    have hsum := heldIn_dropRental hrental c
    rw [if_pos rfl] at hsum
    have hone := h.owned.writable_le c
    unfold writable at hone ⊢
    show _ + d.filling c = 0
    omega
  have hrentals := rentals_releaseChunk (d.dropRental r) k c
  unfold release
  rw [hrental]
  refine h.advance hr (by simp) ((h.owned.dropRental r).releaseChunk hsize)
    ((idle_dropRental h.idle r).releaseChunk hfree) ?_ ?_
    (fun hended => absurd rfl hended) ?_
  · rw [hrentals, map_chunk_dropRental]
  · intro q hne
    rw [rental?, hrentals, ← rental?, rental?_dropRental_of_ne hne]
  · intro q hne j x s hq
    exact (h.standing_dropRental hrental hq hne).releaseChunk fun hin =>
      h.apart hrental hq hne hin

theorem shared (h : Tenured leases d) (hr : Runs leases d r k c .held) :
    Tenured (leases.set r ⟨k, .unmarked⟩) (d.shareRental r).2 := by
  have howned := h.owned.shareRental r
  unfold shareRental at howned ⊢
  rw [h.held r k c hr] at howned ⊢
  exact (h.dropped hr).calm (.of_still (.shares _ _)) howned

/-- **A key used once marks what no one writes to**, or nothing. -/
theorem marked (h : Tenured leases d) (hr : Runs leases d r k c .unmarked) :
    Tenured (leases.set r ⟨k, .ended⟩) (d.markIdle k c) := by
  have hself := h.standing r k c .unmarked hr
  refine h.advance hr (by simp) (h.owned.markIdle k c) ?_ rfl (fun _ _ => rfl)
    (fun hended => absurd rfl hended) ?_
  · intro j x hmem
    rcases mem_ledger_markIdle hmem with hmem | ⟨rfl, heq⟩
    · exact h.idle j x hmem
    · obtain rfl : x = c := congrArg LedgerEntry.chunk heq
      rcases hself with ⟨-, hfilling, hheld⟩ | ⟨hgone, -⟩
      · show heldIn d.rentals x + d.filling x = 0
        rw [hfilling, hheld]
        rfl
      · exact absurd (ledgers_markIdle.mp (ledgers_of_mem hmem)) hgone
  · intro q hne j x s hq
    -- a session lends a chunk once, so the entry marked is of no other lease
    have hclosed := closed_markIdle d k j c
    rcases h.standing q j x s hq with ⟨hmem, hfilling, hheld⟩ | ⟨hgone, hshut⟩
    · refine .inl ⟨?_, hfilling, hheld⟩
      by_cases hx : x = c
      · have hj : j ≠ k := by
          rintro rfl
          subst hx
          exact hne (h.distinct q r j x s .unmarked hq hr)
        rwa [collector_markIdle_of_ne hj]
      · exact mem_markIdle_of_mem hmem hx
    · exact .inr ⟨fun hin => hgone (ledgers_markIdle.mp hin), hclosed.trans hshut⟩

/-! ## Rentals made -/

/-- Entering a chunk of an open session disturbs no rental. -/
theorem enterChunk (h : Tenured leases d) (hopen : (d.collector k).closed = false) :
    Tenured leases (d.enterChunk k).2 := by
  refine h.calm ⟨?_, ?_, take_rentals d⟩
    (h.owned.enterChunk k).1
  · intro hidle j c hmem
    have hsame : (d.enterChunk k).2.writable c = d.writable c := by
      rw [writable, writable, filling, filling, enterChunk_writers]
      exact congrArg (heldIn · c + _) (take_rentals d)
    rcases mem_ledger_enterChunk hmem with hmem | ⟨-, heq⟩
    · rw [hsame]
      exact hidle j c hmem
    · exact absurd (congrArg LedgerEntry.active heq) Bool.false_ne_true
  · intro j c n hd
    have hfilling : (d.enterChunk k).2.filling c = d.filling c := by
      rw [filling, filling, enterChunk_writers]
    rcases hd with ⟨hmem, hnone, hheld⟩ | ⟨hgone, hclosed⟩
    · exact .inl ⟨mem_enterChunk_of_mem hmem, hfilling.trans hnone,
        (congrArg (heldIn · c) (take_rentals d)).trans hheld⟩
    · -- what has left a ledger has left a closed one, and this session is open
      have hne : j ≠ k := by
        rintro rfl
        rw [hopen] at hclosed
        exact absurd hclosed Bool.false_ne_true
      unfold Standing Ledgers
      rw [collector_enterChunk_of_ne hne]
      exact .inr ⟨hgone, hclosed⟩

theorem heldIn_lend (d : Depot) (x c : ChunkId) :
    heldIn (d.lend x).rentals c = heldIn d.rentals c + (x == c).toNat := heldIn_push ..

/-- What is rented stays rented when another rental is made. -/
theorem rental?_lend (h : d.rental? q = some c) (x : ChunkId) : (d.lend x).rental? q = some c := by
  obtain ⟨i, hi, hiheld, hichunk⟩ := rental?_eq_some.mp h
  have hlt := (Array.getElem?_eq_some_iff.mp hi).1
  refine rental?_eq_some.mpr ⟨i, ?_, hiheld, hichunk⟩
  rw [Depot.lend, Array.getElem?_push, if_neg (Nat.ne_of_lt hlt)]
  exact hi

/-- What runs after a rental was made ran before, or is of that rental. -/
theorem runs_lend (hlength : leases.length = d.rentals.size)
    (hq : Runs (leases ++ [⟨k, .held⟩]) (d.lend x) q j c stage) :
    (q = leases.length ∧ j = k ∧ c = x ∧ stage = .held) ∨ Runs leases d q j c stage := by
  have hlease := hq.lease
  have hchunk := hq.chunk
  simp only [Depot.lend, Array.map_push, Array.getElem?_push, Array.size_map, ← hlength] at hchunk
  rcases Nat.lt_trichotomy q leases.length with hlt | heq | hgt
  · rw [List.getElem?_append_left hlt] at hlease
    rw [if_neg (Nat.ne_of_lt hlt)] at hchunk
    exact .inr ⟨hlease, hchunk, hq.going⟩
  · subst heq
    rw [List.getElem?_concat_length, Option.some.injEq, Lease.mk.injEq] at hlease
    rw [if_pos rfl, Option.some.injEq] at hchunk
    exact .inl ⟨rfl, hlease.1.symm, hchunk.symm, hlease.2.symm⟩
  · rw [List.getElem?_eq_none (by simpa using Nat.succ_le_of_lt hgt)] at hlease
    exact absurd hlease (by simp)

/-- A chunk with an active entry has no other entry. -/
theorem ne_of_entry (h : Owned d) (hentry : ⟨x, true⟩ ∈ (d.collector k).ledger)
    {active : Bool} (hmem : ⟨c, active⟩ ∈ (d.collector j).ledger)
    (hne : j = k → (⟨c, active⟩ : LedgerEntry) ≠ ⟨x, true⟩) : c ≠ x := by
  rintro rfl
  obtain rfl := ledgers_unique (h.ledgered_le c) (ledgers_of_mem hmem) (ledgers_of_mem hentry)
  have hnodup := nodup_ledger h.ledgered_le j
  exact hne rfl (List.inj_on_of_nodup_map hnodup hmem hentry rfl)

/-- A rental of a fresh active entry is a new lease. -/
theorem lend (h : Tenured leases d) (hfresh : Fresh d x)
    (hentry : ⟨x, true⟩ ∈ (d.collector k).ledger)
    (hnew : ∀ r c stage, Runs leases d r k c stage → c ≠ x) :
    Tenured (leases ++ [⟨k, .held⟩]) (d.lend x) := by
  have hheld : ∀ c ≠ x, heldIn (d.lend x).rentals c = heldIn d.rentals c := by
    intro c hc
    rw [heldIn_lend, beq_eq_false_iff_ne.mpr (Ne.symm hc)]
    rfl
  have hunwritten := hfresh.unwritten
  unfold writable at hunwritten
  refine ⟨h.owned.lend hfresh, ?_, ?_, ?_, ?_, ?_⟩
  · intro j c hmem
    have hc : c ≠ x := ne_of_entry h.owned hentry hmem fun _ heq =>
      absurd (congrArg LedgerEntry.active heq) Bool.false_ne_true
    have hwritable := h.idle j c hmem
    show heldIn (d.lend x).rentals c + d.filling c = 0
    rw [hheld c hc]
    exact hwritable
  · simp [Depot.lend, h.length]
  · intro q j c hq
    rcases runs_lend h.length hq with ⟨rfl, -, rfl, -⟩ | hq
    · simp [rental?, Depot.lend, h.length]
    · exact rental?_lend (h.held q j c hq) x
  · intro q j c s hq
    rcases runs_lend h.length hq with ⟨-, rfl, rfl, rfl⟩ | hran
    · refine .inl ⟨hentry, ?_, ?_⟩
      · show d.filling c = 0
        omega
      · rw [heldIn_lend, beq_self_eq_true, Bool.toNat_true]
        show heldIn d.rentals c + 1 = 1
        omega
    · rcases h.standing q j c s hran with ⟨hmem, hfilling, hcount⟩ | hgone
      · refine .inl ⟨hmem, hfilling, ?_⟩
        rw [hheld c (ne_of_entry h.owned hentry hmem fun hj heq => ?_), hcount]
        subst hj
        exact hnew q c s hran (congrArg LedgerEntry.chunk heq)
      · exact .inr hgone
  · intro q p j c s t hq hp
    -- no lease of the session was of the fresh chunk, so the new one shares none
    rcases runs_lend h.length hq with ⟨rfl, rfl, rfl, -⟩ | hran
    · rcases runs_lend h.length hp with ⟨rfl, -, -, -⟩ | hp
      · rfl
      · exact absurd rfl (hnew p c t hp)
    · rcases runs_lend h.length hp with ⟨rfl, rfl, rfl, -⟩ | hp
      · exact absurd rfl (hnew q c s hran)
      · exact h.distinct q p j c s t hran hp

theorem rented (h : Tenured leases d) (hk : k < d.collectors.size)
    (hrent : d.rent k = (some r, d')) : Tenured (leases ++ [⟨k, .held⟩]) d' := by
  obtain ⟨d₁, d₂, hturns, hopen, -, hagree, -, rfl⟩ := rent_some hrent
  have hmoves := Moves.of_turns hturns
  have h₁ := h.calm (h.owned.calm_moves hmoves) (h.owned.moves hmoves)
  have h₂ := (h₁.enterChunk hopen).calm (.of_alike hagree.toAlike)
    ((h₁.owned.enterChunk k).1.alike hagree.toAlike)
  have hk₁ : k < d₁.collectors.size := by rwa [hmoves.size]
  refine h₂.lend ((h₁.owned.enterChunk k).2.alike hagree.toAlike) ?_ ?_
  · rw [hagree.ledger, ledger_enterChunk hk₁]
    exact List.mem_append_right _ (List.mem_singleton.mpr rfl)
  · intro q c s hq heq
    have hrentals : d₂.rentals = d₁.rentals := hagree.rentals.trans (take_rentals d₁)
    have hq₁ : Runs leases d₁ q k c s := ⟨hq.lease, by rw [← hrentals]; exact hq.chunk, hq.going⟩
    -- a lease of the fresh chunk would have its entry, or its session would be closed
    rcases h₁.standing q k c s hq₁ with ⟨hmem, -, -⟩ | ⟨-, hclosed⟩
    · rw [heq] at hmem
      exact h₁.owned.not_ledgers_enterChunk k k (ledgers_of_mem hmem)
    · rw [hopen] at hclosed
      exact Bool.false_ne_true hclosed

/-! ## Orderly runs -/

/-- A closed collector may be frozen. -/
theorem freeze (h : Tenured leases d) (hclosed : (d.collector k).closed = true) :
    Tenured leases (d.freeze k).2 := by
  obtain ⟨-, hfrozen⟩ := freeze_spec d k
  have hfilling : ∀ c, (d.freeze k).2.filling c = d.filling c := by
    intro c
    rw [filling, filling, hfrozen.writers]
  refine h.calm ⟨?_, ?_, hfrozen.rentals⟩ (h.owned.freeze k)
  · intro hidle j c hmem
    have hne : j ≠ k := by
      rintro rfl
      rw [hfrozen.collector] at hmem
      exact absurd hmem List.not_mem_nil
    rw [hfrozen.others j hne] at hmem
    rw [writable, hfilling, hfrozen.rentals]
    exact hidle j c hmem
  · intro j c n hd
    -- the rentals of the session frozen leave its ledger, and it is closed
    by_cases hj : j = k
    · subst hj
      refine .inr ⟨?_, by rw [hfrozen.collector]; exact hclosed⟩
      rintro ⟨entry, hmem, -⟩
      rw [hfrozen.collector] at hmem
      exact absurd hmem List.not_mem_nil
    · unfold Standing Ledgers
      rwa [hfrozen.others j hj, hfilling, hfrozen.rentals]

/-- **Every orderly run keeps its rentals standing.** -/
theorem of_orderly (h : Orderly leases d) : Tenured leases d := by
  induction h with
  | opened capacity =>
    refine ⟨.ofCapacity capacity, fun k c hmem => ?_, rfl, fun r k c hr => ?_,
      fun r k c stage hr => ?_, fun r q k c stage stage' hr => ?_⟩
    · rw [collector_of_ge (Nat.zero_le k)] at hmem
      exact absurd hmem List.not_mem_nil
    all_goals exact absurd hr.lease (by simp)
  | plain o _ ho ih => exact ih.calm (ih.owned.calm_plain ho) (ih.owned.op o)
  | frozen k _ hclosed ih => exact ih.freeze hclosed
  | rented _ hk hrent ih => exact ih.rented hk hrent
  | refused _ hrent ih =>
    have hmoves := Moves.of_turns (rent_none hrent)
    exact ih.calm (ih.owned.calm_moves hmoves) (ih.owned.moves hmoves)
  | released _ hlease ih =>
    obtain ⟨c, hr⟩ := ih.exists_runs hlease (by simp)
    exact ih.released hr
  | dropped _ hlease ih =>
    obtain ⟨c, hr⟩ := ih.exists_runs hlease (by simp)
    exact ih.dropped hr
  | shared _ hlease ih =>
    obtain ⟨c, hr⟩ := ih.exists_runs hlease (by simp)
    exact ih.shared hr
  | marked _ hlease hh ih =>
    exact ih.marked ⟨hlease, by rw [Array.getElem?_map, hh]; rfl, by simp⟩

end Tenured

/-- What an eviction of an orderly run takes from a ledger, no one can write
to. -/
theorem spared_of_orderly (h : Orderly leases d) (hevict : d.evictOldest? k = some d')
    (hin : d.Ledgers j c) (hc : 0 < d.writable c) : d'.Ledgers j c := by
  obtain ⟨x, pre, post, hledger, -, hgiven, hothers⟩ := collector_evictOldest? hevict
  by_cases hj : j = k
  · subst hj
    -- what is taken is marked idle, so no one can write to it
    have hidle := (Tenured.of_orderly h).idle j x (by rw [hledger]; simp)
    obtain ⟨entry, hmem, rfl⟩ := hin
    have hne : entry ≠ ⟨x, false⟩ := by
      rintro rfl
      exact absurd hidle (Nat.ne_of_gt hc)
    refine ⟨entry, ?_, rfl⟩
    rw [hledger] at hmem
    rw [hgiven]
    simpa [Collector.giveUp, hne] using hmem
  · rwa [Ledgers, hothers j hj]

end Depot

/-- **Ownership of chunks is exclusive** after every run of operations, and
an eviction of an orderly run takes no chunk from a ledger that a rental or a
writer can still write to. -/
theorem exclusive_ownership :
    (∀ (capacity : Nat) (ops : List Op), Exclusive (runOps capacity ops)) ∧
    ∀ (leases : List Lease) (d : Depot), Orderly leases d →
      ∀ (k : CollectorId) (d' : Depot), d.evictOldest? k = some d' →
        ∀ (j : CollectorId) (c : ChunkId), d.Ledgers j c →
          ((∃ r, d.rental? r = some c) ∨ ∃ w s, d.writer? w = some s ∧ s.chunk = some c) →
          d'.Ledgers j c := by
  refine ⟨fun capacity ops => (owned_runOps capacity ops).exclusive, ?_⟩
  intro leases d horderly k d' hevict j c hin hheld
  refine spared_of_orderly horderly hevict hin ?_
  unfold writable
  rcases hheld with ⟨r, hr⟩ | ⟨w, s, hw, hs⟩
  · have := heldIn_of_rental? hr
    omega
  · have := filling_pos hw hs
    omega

/-- One session of a depot with a chunk that was released and one that is
still rented. -/
def Depot.twoRented : Depot :=
  let opened := (Depot.ofCapacity 2).newCollector {}
  let released := (opened.2.rent 0).2.release 0 0
  (released.rent 0).2

/-- Where a released chunk is given up, the one still rented stays. -/
theorem ownership_twoRented :
    Orderly [⟨0, .ended⟩, ⟨0, .held⟩] Depot.twoRented ∧
      ∃ d', Depot.twoRented.evictOldest? 0 = some d' ∧ ¬ d'.Ledgers 0 0 ∧ d'.Ledgers 0 1 := by
  have hopened := Orderly.plain (.call (.newCollector {})) (.opened 2) rfl
  have hfirst := Orderly.rented (r := 0) (k := 0) hopened (by decide) rfl
  have hended := Orderly.released (r := 0) (k := 0) hfirst rfl
  have horderly : Orderly [⟨0, .ended⟩, ⟨0, .held⟩] Depot.twoRented :=
    Orderly.rented (r := 1) (k := 0) hended (by decide) rfl
  refine ⟨horderly, _, rfl, ?_, ?_⟩
  · rintro ⟨entry, hmem, hentry⟩
    have honly : entry ∈ [(⟨1, true⟩ : LedgerEntry)] := hmem
    rw [List.mem_singleton.mp honly] at hentry
    exact absurd hentry (by decide)
  · exact exclusive_ownership.2 _ _ horderly 0 _ rfl 0 1 ⟨⟨1, true⟩, by decide, rfl⟩ (.inl ⟨1, rfl⟩)

end EventTrace
