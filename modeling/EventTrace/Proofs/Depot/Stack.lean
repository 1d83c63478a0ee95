import EventTrace.Proofs.Depot.FreeChain
import EventTrace.Proofs.Depot.Operations
import Mathlib.Data.List.Perm.Subperm
/-!
# Depot — the pool is a stack of clean chunks

A pool is asked for chunks and offered chunks, and what it did is kept in a log.
At every moment the free list is what the log leaves waiting, the chunk returned
last in front (`Stacks`). One more entry of the log moves the front of the list
and nothing behind it, so that the list of any run is known from one step of it
(`Stacks.returned`, `Stacks.rented`), and the links between chunks that would
hold the list follow step by step (`Depot.follows`). What is rented is therefore
the chunk returned last of those that wait, and it is clean (`pool_is_stack`).
-/

namespace EventTrace

open Depot

/-! ## The log of a pool -/

/-- What a pool did for someone who asked. -/
inductive PoolEvent where
  | rented (c : ChunkId)
  /-- A chunk was offered and taken back. -/
  | returned (c : ChunkId)
deriving DecidableEq, Repr

/-- A chunk was returned and not rented since. -/
def Waits (log : List PoolEvent) (c : ChunkId) : Prop :=
  ∃ before after, log = before ++ .returned c :: after ∧ .rented c ∉ after

/-- Of the chunks that wait, this one was returned last: whatever was returned
after it was rented again. -/
def Latest (log : List PoolEvent) (c : ChunkId) : Prop :=
  ∃ before after, log = before ++ .returned c :: after ∧ .rented c ∉ after ∧
    ∀ x, ¬ Waits after x

/-- A list has the chunks that wait, each once, and in front of each are those
that were returned after it and wait. -/
structure Stacks (log : List PoolEvent) (l : List ChunkId) : Prop where
  nodup : l.Nodup
  mem_iff : ∀ c, c ∈ l ↔ Waits log c
  above : ∀ front c behind, l = front ++ c :: behind → ∃ before after,
    log = before ++ .returned c :: after ∧ .rented c ∉ after ∧ ∀ x, x ∈ front ↔ Waits after x

section

variable {log : List PoolEvent} {l : List ChunkId} {c x : ChunkId} {event : PoolEvent}

/-- A chunk waits after one more event if that returned it, or if it waited and
was not rented. -/
theorem waits_concat :
    Waits (log ++ [event]) x ↔ event = .returned x ∨ event ≠ .rented x ∧ Waits log x := by
  constructor
  · rintro ⟨before, after, hlog, hnot⟩
    rcases List.eq_nil_or_concat after with rfl | ⟨after, last, rfl⟩
    · exact .inl (List.cons.inj (List.append_inj' hlog rfl).2).1
    · rw [List.concat_eq_append] at hlog hnot
      have hsplit : log ++ [event] = (before ++ .returned x :: after) ++ [last] := by
        rw [hlog, List.append_assoc, List.cons_append]
      obtain ⟨hbefore, hlast⟩ := List.append_inj' hsplit rfl
      obtain rfl : event = last := (List.cons.inj hlast).1
      refine .inr ⟨fun hrented => hnot ?_, before, after, hbefore, fun hmem => hnot ?_⟩
      · rw [hrented]
        exact List.mem_append_right after List.mem_cons_self
      · exact List.mem_append_left _ hmem
  · rintro (rfl | ⟨hne, before, after, rfl, hnot⟩)
    · exact ⟨log, [], rfl, List.not_mem_nil⟩
    · refine ⟨before, after ++ [event], by rw [List.append_assoc, List.cons_append], ?_⟩
      rw [List.mem_append, List.mem_singleton]
      exact fun hmem => hmem.elim hnot fun heq => hne heq.symm

theorem not_waits_nil : ¬ Waits [] x := by
  rintro ⟨before, after, hlog, -⟩
  exact absurd hlog (by simp)

theorem stacks_nil : Stacks [] [] where
  nodup := .nil
  mem_iff c := iff_of_false List.not_mem_nil not_waits_nil
  above front c behind h := absurd h (by simp)

namespace Stacks

/-- **A chunk returned is in front from then on.** -/
theorem returned (h : Stacks log l) (hc : c ∉ l) : Stacks (log ++ [.returned c]) (c :: l) where
  nodup := List.nodup_cons.mpr ⟨hc, h.nodup⟩
  mem_iff x := by
    rw [waits_concat, List.mem_cons, h.mem_iff, PoolEvent.returned.injEq, eq_comm]
    simp
  above front y behind hsplit := by
    cases front with
    | nil =>
      obtain ⟨rfl, -⟩ := List.cons.inj hsplit
      exact ⟨log, [], rfl, List.not_mem_nil,
        fun x => iff_of_false List.not_mem_nil not_waits_nil⟩
    | cons z front =>
      obtain ⟨rfl, hrest⟩ := List.cons.inj hsplit
      obtain ⟨before, after, rfl, hnot, hfront⟩ := h.above front y behind hrest
      refine ⟨before, after ++ [.returned c], by rw [List.append_assoc, List.cons_append], ?_,
        fun x => ?_⟩
      · simpa using hnot
      · rw [waits_concat, List.mem_cons, hfront, PoolEvent.returned.injEq, eq_comm]
        simp

/-- **The chunk rented is the one in front**, and those behind it stay as they
are. -/
theorem rented (h : Stacks log (c :: l)) : Stacks (log ++ [.rented c]) l where
  nodup := (List.nodup_cons.mp h.nodup).2
  mem_iff x := by
    have hc := (List.nodup_cons.mp h.nodup).1
    rw [waits_concat, ← h.mem_iff, List.mem_cons]
    by_cases hx : x = c
    · simp [hx, hc]
    · simp [hx, Ne.symm hx]
  above front y behind hsplit := by
    have hc := (List.nodup_cons.mp h.nodup).1
    obtain ⟨before, after, rfl, hnot, hfront⟩ := h.above (c :: front) y behind (by rw [hsplit]; rfl)
    refine ⟨before, after ++ [.rented c], by rw [List.append_assoc, List.cons_append], ?_,
      fun x => ?_⟩
    · have hne : y ≠ c := by
        rintro rfl
        exact hc (hsplit ▸ List.mem_append_right front List.mem_cons_self)
      simpa [hne] using hnot
    · have hcfront : c ∉ front := fun hmem => hc (hsplit ▸ List.mem_append_left _ hmem)
      rw [waits_concat, ← hfront, List.mem_cons]
      by_cases hx : x = c
      · simp [hx, hcfront]
      · simp [hx, Ne.symm hx]

/-- A chunk that is made was not waiting. -/
theorem made (h : Stacks log []) (c : ChunkId) : Stacks (log ++ [.rented c]) [] where
  nodup := .nil
  mem_iff x := by
    rw [waits_concat, ← h.mem_iff]
    simp
  above front y behind hsplit := absurd hsplit (by simp)

/-- The chunk in front was returned last. -/
theorem latest (h : Stacks log (c :: l)) : Latest log c := by
  obtain ⟨before, after, hlog, hnot, hfront⟩ := h.above [] c l rfl
  exact ⟨before, after, hlog, hnot, fun x hx => List.not_mem_nil ((hfront x).mpr hx)⟩

end Stacks

/-- Distinct chunks are what waits once they were returned, the last first. -/
theorem stacks_of_nodup (h : l.Nodup) : Stacks (l.reverse.map .returned) l := by
  induction l with
  | nil => exact stacks_nil
  | cons c rest ih =>
    obtain ⟨hc, hrest⟩ := List.nodup_cons.mp h
    rw [List.reverse_cons, List.map_append]
    exact (ih hrest).returned hc

end

/-! ## Asking the pool -/

/-- The operations that leave the pool alone, or ask it for one chunk, or offer
it one. The others, such as a write, may ask several times on their way. -/
def Op.isDirect : Op → Bool
  | takeShare | returnShare _ => true
  | writeRental .. | dropRental _ | shareRental _ | markIdle .. => true
  | makeShare _ | cloneShare _ | dropShare _ | resetShare _ => true
  | recordDropped .. | recordSampledOut _ | recordRateLimited _ | nameThread .. => true
  | newLink | registerLink .. | closeLink _ | screen .. => true
  | call (.newCollector _) | call (.newWriter ..) | call (.close _) | call (.closeWriters _) => true
  | call _ | rent _ | release .. | offerEvent _ | letGo _ | holdRoom _ | evict _ => false

/-- What the pool does for an operation that asks it directly. -/
def Op.poolEvent? (d : Depot) : Op → Option PoolEvent
  | takeShare => some (.rented d.take.1)
  | returnShare q => if (d.returnShare q).1 then (d.share? q).map .returned else none
  | _ => none

/-- The log of the pool over a run. -/
def poolEvents (d : Depot) : List Op → List PoolEvent
  | [] => []
  | o :: ops => (o.poolEvent? d).toList ++ poolEvents (o.apply d) ops

namespace FreeChain

/-- The links after an operation, none if a walk along them did not end. -/
def follow? (f : FreeChain) (d : Depot) : Op → Option FreeChain
  | .takeShare => f.takeShare? d
  | .returnShare q => f.returnShare? d q
  | _ => some f

/-- The links after a run. -/
def run? (f : FreeChain) (d : Depot) : List Op → Option FreeChain
  | [] => some f
  | o :: ops => (f.follow? d o).bind fun f' => f'.run? (o.apply d) ops

end FreeChain

namespace Depot

variable {d : Depot} {c x : ChunkId} {q : ShareId} {o : Op}

/-- There are no more free chunks than chunks. -/
theorem Owned.length_free_le (h : Owned d) : d.free.length ≤ d.chunks.size := by
  have hlt : ∀ c ∈ d.free, c < d.chunks.size := fun c hc =>
    h.lt_size (by rw [h.alone c hc]; exact Nat.one_ne_zero)
  have hsub := List.Nodup.subperm h.nodup_free fun c hc => List.mem_range.mpr (hlt c hc)
  simpa using hsub.length_le

/-! ### One chunk taken -/

theorem free_takeShare (d : Depot) : d.takeShare.2.free = d.free.tail := by
  show d.take.2.free = _
  unfold take
  split
  · next c rest hfree => rw [hfree]; rfl
  · next hfree => simp [note, hfree]

theorem allocated_takeShare (d : Depot) :
    d.takeShare.2.allocated = d.allocated + if d.free = [] then 1 else 0 := by
  show d.take.2.allocated = _
  unfold take
  split
  · next c rest hfree => simp [hfree]
  · next hfree => simp [note, hfree]

theorem take_of_free {rest : List ChunkId} (h : d.free = c :: rest) : d.take.1 = c := by
  unfold take
  rw [h]

theorem take_of_free_nil (h : d.free = []) : d.take.1 = d.chunks.size := by
  unfold take
  rw [h]

theorem share?_takeShare (d : Depot) : d.takeShare.2.share? d.takeShare.1 = some d.take.1 := by
  simp [takeShare, addShare, share?]

/-- What is taken: one share of a chunk that is clean and that nothing else
refers to. -/
structure Clean (d : Depot) (c : ChunkId) : Prop where
  events : (d.chunk c).events = #[]
  capacity : (d.chunk c).capacity = d.capacity
  alone : d.references c = 1

/-- A chunk that is made has the depot's capacity, and so has a free one. -/
theorem Owned.capacity_take (h : Owned d) : (d.take.2.chunk d.take.1).capacity = d.capacity := by
  unfold Depot.take
  split
  · next c rest hfree => exact (h.empty c (by rw [hfree]; exact List.mem_cons_self)).2
  · have hpos := h.capacity_pos
    simp only [note, chunk, Array.getElem?_push_size, Option.getD_some, Chunk.ofCapacity]
    omega

theorem Owned.clean_takeShare (h : Owned d) : d.takeShare.2.Clean d.take.1 := by
  obtain ⟨-, hfresh, hledgered⟩ := h.take
  refine ⟨hfresh.events, ?_, ?_⟩
  · show (d.take.2.chunk d.take.1).capacity = d.take.2.capacity
    rw [take_capacity, h.capacity_take]
  · have hfree : d.take.2.free.count d.take.1 = 0 := List.count_eq_zero.mpr hfresh.not_free
    have hunshared := hfresh.unshared
    have hunwritten := hfresh.unwritten
    have hpush := heldIn_push d.take.2.shares d.take.1 d.take.1
    rw [beq_self_eq_true, Bool.toNat_true] at hpush
    rw [references_eq]
    show d.take.2.free.count d.take.1 + d.take.2.ledgered d.take.1 + d.take.2.writable d.take.1 +
      heldIn (d.take.2.shares.push { chunk := d.take.1 }) d.take.1 = 1
    omega

/-! ### One chunk offered -/

theorem returnShare_eq (hq : d.share? q = some c) :
    d.returnShare q = (d.dropShare q).giveBack c := by
  rw [returnShare, hq]

/-- A share given back is one reference less to its chunk. -/
theorem references_dropShare (hq : d.share? q = some c) (x : ChunkId) :
    (d.dropShare q).references x + (if c = x then 1 else 0) = d.references x := by
  obtain ⟨h, hh, hheld, rfl⟩ := share?_eq_some.mp hq
  have hdrop := heldIn_drop (c := x) hh
  rw [hheld, Bool.true_and] at hdrop
  rw [references_eq, references_eq]
  show d.free.count x + d.ledgered x + d.writable x +
    heldIn (d.shares.modify q fun h => { h with held := false }) x + _ =
      d.free.count x + d.ledgered x + d.writable x + heldIn d.shares x
  by_cases hx : h.chunk = x
  · rw [if_pos hx]
    rw [beq_iff_eq.mpr hx, Bool.toNat_true] at hdrop
    omega
  · rw [if_neg hx]
    rw [beq_eq_false_iff_ne.mpr hx, Bool.toNat_false] at hdrop
    omega

/-- **A return succeeds exactly if the chunk has the pool's capacity and no one
else refers to it.** -/
theorem returnShare_iff (hq : d.share? q = some c) :
    (d.returnShare q).1 = true ↔ (d.chunk c).capacity = d.capacity ∧ d.references c = 1 := by
  have hrefs := references_dropShare hq c
  rw [if_pos rfl] at hrefs
  have htest : (d.chunk c).capacity = d.capacity ∧ (d.dropShare q).references c = 0 ↔
      (d.chunk c).capacity = d.capacity ∧ d.references c = 1 := by
    refine and_congr_right fun _ => ?_
    omega
  rw [returnShare_eq hq, ← htest]
  unfold giveBack
  split
  · next hback => exact iff_of_true rfl hback
  · next hback => exact iff_of_false Bool.false_ne_true hback

theorem free_returnShare (hq : d.share? q = some c) :
    (d.returnShare q).2.free = if (d.returnShare q).1 then c :: d.free else d.free := by
  rw [returnShare_eq hq]
  unfold giveBack
  split <;> rfl

theorem events_returnShare (hq : d.share? q = some c) (hsize : c < d.chunks.size)
    (h : (d.returnShare q).1 = true) : ((d.returnShare q).2.chunk c).events = #[] := by
  rw [returnShare_eq hq] at h ⊢
  unfold giveBack at h ⊢
  split
  · exact congrArg Chunk.events (chunk_modifyChunk (d := d.dropShare q) (f := Chunk.reset) hsize)
  · next hback =>
    rw [if_neg hback] at h
    exact absurd h Bool.false_ne_true

/-- What comes of offering the chunk of a share. -/
structure Returns (d : Depot) (q : ShareId) (c : ChunkId) : Prop where
  succeeds_iff : (d.returnShare q).1 = true ↔
    (d.chunk c).capacity = d.capacity ∧ d.references c = 1
  free_of_success : (d.returnShare q).1 = true →
    (d.returnShare q).2.free = c :: d.free ∧ ((d.returnShare q).2.chunk c).events = #[]
  free_of_failure : (d.returnShare q).1 = false → (d.returnShare q).2.free = d.free
  allocated : (d.returnShare q).2.allocated = d.allocated

theorem Owned.returns (h : Owned d) (hq : d.share? q = some c) : d.Returns q c where
  succeeds_iff := returnShare_iff hq
  free_of_success hback := by
    rw [free_returnShare hq, if_pos hback]
    exact ⟨rfl, events_returnShare hq (h.lt_size_of_heldIn (.inr (heldIn_of_share? hq))) hback⟩
  free_of_failure hback := by rw [free_returnShare hq, hback, if_neg Bool.false_ne_true]
  allocated := by
    rw [returnShare_eq hq, giveBack_allocated]
    rfl

/-! ### Runs -/

/-- An operation that is direct and neither takes nor offers a share leaves the
free list alone. -/
theorem free_of_isDirect (h : o.isDirect = true) (htake : o ≠ .takeShare)
    (hreturn : ∀ q, o ≠ .returnShare q) (d : Depot) : (o.apply d).free = d.free := by
  cases o with
  | takeShare => exact absurd rfl htake
  | returnShare q => exact absurd rfl (hreturn q)
  | call c =>
    cases c with
    | newCollector | close => rfl
    | newWriter k thread name =>
      dsimp only [Op.apply, Call.apply]
      split
      · obtain ⟨d₁, hagree, heq⟩ := newWriter_eq d k thread name
        rw [heq]
        exact hagree.free
      · rfl
    | closeWriters k => exact (agree_closeWriters d k).free
    | write | detach | dropWriter | freeze => exact absurd h Bool.false_ne_true
  | writeRental | shareRental | cloneShare | screen =>
    dsimp only [Op.apply, writeRental, shareRental]
    split <;> rfl
  | resetShare q =>
    dsimp only [Op.apply, resetShare]
    split
    · split <;> rfl
    · rfl
  | recordDropped k reason => exact (refuses_recordDropped d k reason).free
  | recordSampledOut k => exact (refuses_recordSampledOut d k).free
  | recordRateLimited k => exact (refuses_recordRateLimited d k).free
  | nameThread k thread name => exact (agree_nameThread d k thread name).free
  | dropRental | markIdle | makeShare | dropShare | newLink | registerLink | closeLink => rfl
  | rent | release | offerEvent | letGo | holdRoom | evict => exact absurd h Bool.false_ne_true

/-- Nothing is logged of an operation that neither takes nor offers a share, and
the links stay as they are. -/
theorem unlogged (f : FreeChain) (htake : o ≠ .takeShare) (hreturn : ∀ q, o ≠ .returnShare q)
    (d : Depot) : o.poolEvent? d = none ∧ f.follow? d o = some f := by
  cases o with
  | takeShare => exact absurd rfl htake
  | returnShare q => exact absurd rfl (hreturn q)
  | _ => exact ⟨rfl, rfl⟩

/-- **One operation moves the front of the stack**, and the links follow. -/
theorem follows {log : List PoolEvent} {f : FreeChain} (howned : Owned d)
    (hstack : Stacks log d.free) (hholds : f.Holds d.free) (ho : o.isDirect = true) :
    Stacks (log ++ (o.poolEvent? d).toList) (o.apply d).free ∧
      ∃ f', f.follow? d o = some f' ∧ f'.Holds (o.apply d).free := by
  have hsteps := howned.length_free_le
  by_cases htake : o = .takeShare
  · subst htake
    show Stacks (log ++ [.rented d.take.1]) d.takeShare.2.free ∧
      ∃ f', (f.take? d.chunks.size).map Prod.snd = some f' ∧ f'.Holds d.takeShare.2.free
    rw [free_takeShare]
    cases hfree : d.free with
    | nil =>
      rw [hfree] at hstack hholds
      exact ⟨hstack.made _, f, by rw [hholds.take_nil, Option.map_some], hholds⟩
    | cons c rest =>
      rw [hfree] at hstack hholds hsteps
      rw [take_of_free hfree]
      obtain ⟨f', htaken, hholds'⟩ := hholds.take_cons (Nat.le_of_succ_le hsteps)
      exact ⟨hstack.rented, f', by rw [htaken, Option.map_some], hholds'⟩
  by_cases hreturn : ∃ q, o = .returnShare q
  · obtain ⟨q, rfl⟩ := hreturn
    show Stacks (log ++ (if (d.returnShare q).1 then (d.share? q).map PoolEvent.returned
        else none).toList) (d.returnShare q).2.free ∧
      ∃ f', f.returnShare? d q = some f' ∧ f'.Holds (d.returnShare q).2.free
    unfold FreeChain.returnShare?
    cases hq : d.share? q with
    | none =>
      have hsame : d.returnShare q = (false, d) := by rw [returnShare, hq]
      rw [hsame, if_neg Bool.false_ne_true]
      exact ⟨by simpa using hstack, f, rfl, hholds⟩
    | some c =>
      rw [free_returnShare hq]
      by_cases hback : (d.returnShare q).1 = true
      · have hshared := heldIn_of_share? hq
        have hc : c ∉ d.free := howned.not_mem_free_of_heldIn (.inr hshared)
        have hpos : 0 < d.chunks.size :=
          Nat.lt_of_le_of_lt (Nat.zero_le c) (howned.lt_size_of_heldIn (.inr hshared))
        simp only [if_pos hback]
        exact ⟨hstack.returned hc, hholds.giveBack hc hpos⟩
      · simp only [if_neg hback]
        exact ⟨by simpa using hstack, f, rfl, hholds⟩
  · have hsame := free_of_isDirect ho htake (not_exists.mp hreturn) d
    obtain ⟨hevent, hfollow⟩ := unlogged f htake (not_exists.mp hreturn) d
    rw [hsame, hevent]
    exact ⟨by simpa using hstack, f, hfollow, hholds⟩

/-- **The free list of a run is the stack that its log leaves**, and the links
hold it. -/
theorem follows_run {log : List PoolEvent} {f : FreeChain} (howned : Owned d)
    (hstack : Stacks log d.free) (hholds : f.Holds d.free) (ops : List Op)
    (hops : ∀ o ∈ ops, o.isDirect = true) :
    Owned (ops.foldl Op.apply d) ∧ Stacks (log ++ poolEvents d ops) (ops.foldl Op.apply d).free ∧
      ∃ f', f.run? d ops = some f' ∧ f'.Holds (ops.foldl Op.apply d).free := by
  induction ops generalizing d log f with
  | nil => exact ⟨howned, by simpa [poolEvents] using hstack, f, rfl, hholds⟩
  | cons o ops ih =>
    obtain ⟨hstack', f', hfollow, hholds'⟩ :=
      follows howned hstack hholds (hops o List.mem_cons_self)
    have hrest := ih (howned.op o) hstack' hholds' fun o ho => hops o (List.mem_cons_of_mem _ ho)
    rw [FreeChain.run?, hfollow, poolEvents, ← List.append_assoc]
    exact hrest

/-! ### Many returned, many taken -/

/-- The depot after the chunks of some shares were offered one after the
other. -/
def returnShares (d : Depot) (shares : List ShareId) : Depot :=
  shares.foldl (fun d q => (d.returnShare q).2) d

/-- The chunks of so many shares taken one after the other, and the depot after
that. -/
def takeShares : Nat → Depot → List ChunkId × Depot
  | 0, d => ([], d)
  | n + 1, d =>
    let later := takeShares n d.takeShare.2
    (d.take.1 :: later.1, later.2)

/-- A share whose chunk the pool takes back. -/
structure Returnable (d : Depot) (q : ShareId) (c : ChunkId) : Prop where
  share : d.share? q = some c
  capacity : (d.chunk c).capacity = d.capacity
  alone : d.references c = 1

/-- Offering a chunk leaves the shares of other chunks as returnable as they
were. -/
theorem Returnable.after_return {q' : ShareId} {c' : ChunkId} (h' : d.Returnable q' c')
    (h : d.Returnable q c) (hne : c ≠ c') : (d.returnShare q).2.Returnable q' c' := by
  have hback := (returnShare_iff h.share).mpr ⟨h.capacity, h.alone⟩
  have hq : q ≠ q' := by
    rintro rfl
    exact hne (Option.some.inj (h.share.symm.trans h'.share))
  have hrefs := references_dropShare h.share c'
  rw [if_neg hne, Nat.add_zero, h'.alone] at hrefs
  rw [returnShare_eq h.share] at hback ⊢
  refine ⟨?_, ?_, ?_⟩
  · have hshare := h'.share
    rw [share?, giveBack_shares]
    simpa [share?, dropShare, Array.getElem?_modify, hq] using hshare
  · rw [giveBack_capacity, chunk_giveBack (by rw [hrefs]; exact Nat.one_ne_zero)]
    exact h'.capacity
  · unfold giveBack at hback ⊢
    split
    · have hafter := references_withFree ((d.dropShare q).modifyChunk c Chunk.reset)
        (c :: d.free) c'
      rw [List.count_cons_of_ne hne] at hafter
      rw [references_eq] at hrefs
      exact hafter.trans hrefs
    · exact hrefs

/-- **Chunks that the pool takes back are stacked**, the last on top. -/
theorem free_returnShares {held : List (ShareId × ChunkId)} (hnodup : (held.map Prod.snd).Nodup)
    (hheld : ∀ p ∈ held, d.Returnable p.1 p.2) :
    (d.returnShares (held.map Prod.fst)).free = (held.map Prod.snd).reverse ++ d.free ∧
      (d.returnShares (held.map Prod.fst)).allocated = d.allocated := by
  induction held generalizing d with
  | nil => exact ⟨rfl, rfl⟩
  | cons p rest ih =>
    obtain ⟨hp, hrest⟩ := List.nodup_cons.mp hnodup
    have hfirst := hheld p List.mem_cons_self
    have hback := (returnShare_iff hfirst.share).mpr ⟨hfirst.capacity, hfirst.alone⟩
    have hlater := ih (d := (d.returnShare p.1).2) hrest fun r hr =>
      (hheld r (List.mem_cons_of_mem p hr)).after_return hfirst fun heq =>
        hp (heq ▸ List.mem_map_of_mem hr)
    have hallocated : (d.returnShare p.1).2.allocated = d.allocated := by
      rw [returnShare_eq hfirst.share, giveBack_allocated]
      rfl
    rw [free_returnShare hfirst.share, if_pos hback, hallocated] at hlater
    refine ⟨hlater.1.trans ?_, hlater.2⟩
    rw [List.map_cons, List.reverse_cons, List.append_assoc, List.singleton_append]

/-- **Chunks are taken from the top**, and none is made while there are some. -/
theorem takeShares_of_free {front behind : List ChunkId} (h : d.free = front ++ behind) :
    (takeShares front.length d).1 = front ∧ (takeShares front.length d).2.free = behind ∧
      (takeShares front.length d).2.allocated = d.allocated := by
  induction front generalizing d with
  | nil => exact ⟨rfl, h, rfl⟩
  | cons c front ih =>
    have hfree : d.takeShare.2.free = front ++ behind := by rw [free_takeShare, h]; rfl
    have hallocated : d.takeShare.2.allocated = d.allocated := by
      rw [allocated_takeShare, h]
      rfl
    obtain ⟨htaken, hbehind, hafter⟩ := ih hfree
    refine ⟨?_, hbehind, hafter.trans hallocated⟩
    show d.take.1 :: _ = _
    rw [take_of_free h, htaken]

/-- What comes of taking a share from a pool of some log. -/
structure Rents (d : Depot) (log : List PoolEvent) : Prop where
  share : d.takeShare.2.share? d.takeShare.1 = some d.take.1
  clean : d.takeShare.2.Clean d.take.1
  free : d.takeShare.2.free = d.free.tail
  latest : d.free ≠ [] → Latest log d.take.1
  made : d.free = [] → d.take.1 = d.chunks.size
  allocated : d.takeShare.2.allocated = d.allocated + if d.free = [] then 1 else 0

theorem Owned.rents {log : List PoolEvent} (h : Owned d) (hstack : Stacks log d.free) :
    d.Rents log where
  share := share?_takeShare d
  clean := h.clean_takeShare
  free := free_takeShare d
  latest hne := by
    obtain ⟨c, rest, hfree⟩ := List.exists_cons_of_ne_nil hne
    rw [take_of_free hfree]
    exact (hfree ▸ hstack).latest
  made := take_of_free_nil
  allocated := allocated_takeShare d

end Depot

/-- **The pool is a stack of clean chunks.** At any point of any run, let the
pool be asked directly for a while. Then the free list is the stack that the log
leaves, on top of what was there. A chunk offered is taken back exactly if it
has the pool's capacity and no one else refers to it, and goes on top; else the
list stays as it is. A chunk taken is the one returned last of those that wait,
or is made if none waits; it is empty, no one else refers to it, and the others
stay in their order. So distinct chunks returned one after the other are taken
in the reverse order. All of this is done by links between chunks: every walk
along them ends, they hold the free list, and a chunk taken is unlinked. -/
theorem pool_is_stack (capacity : Nat) (before ops : List Op)
    (hops : ∀ o ∈ ops, o.isDirect = true) :
    let start := runOps capacity before
    let d := ops.foldl Op.apply start
    let log := start.free.reverse.map PoolEvent.returned ++ poolEvents start ops
    Stacks log d.free ∧
    (∀ q c, d.share? q = some c → d.Returns q c) ∧
    d.Rents log ∧
    (∀ held : List (ShareId × ChunkId), (held.map Prod.snd).Nodup →
      (∀ p ∈ held, d.Returnable p.1 p.2) →
      let taken := takeShares held.length (d.returnShares (held.map Prod.fst))
      taken.1 = (held.map Prod.snd).reverse ∧ taken.2.free = d.free ∧
        taken.2.allocated = d.allocated) ∧
    ((∃ f : FreeChain, f.Holds start.free) ∧ ∀ f : FreeChain, f.Holds start.free →
      ∃ f', f.run? start ops = some f' ∧ f'.Holds d.free ∧
        ∃ f'', f'.take? d.chunks.size = some (d.free.head?, f'') ∧ f''.Holds d.free.tail) := by
  intro start d log
  have howned : Owned start := owned_runOps capacity before
  have hstack := stacks_of_nodup howned.nodup_free
  obtain ⟨f₀, hf₀⟩ := FreeChain.exists_holds howned.nodup_free
  obtain ⟨hend, hlog, -⟩ := follows_run howned hstack hf₀ ops hops
  refine ⟨hlog, fun q c hq => hend.returns hq, hend.rents hlog, fun held hnodup hheld => ?_,
    ⟨f₀, hf₀⟩, fun f hf => ?_⟩
  · obtain ⟨hfree, hallocated⟩ := free_returnShares hnodup hheld
    have htaken := takeShares_of_free hfree
    rw [List.length_reverse, List.length_map, hallocated] at htaken
    exact htaken
  · obtain ⟨-, -, f', hrun, hholds⟩ := follows_run howned hstack hf ops hops
    have hsteps := hend.length_free_le
    refine ⟨f', hrun, hholds, ?_⟩
    cases hfree : (ops.foldl Op.apply start).free with
    | nil =>
      rw [hfree] at hholds
      exact ⟨f', hholds.take_nil _, hholds⟩
    | cons c rest =>
      rw [hfree] at hholds hsteps
      exact hholds.take_cons (Nat.le_of_succ_le hsteps)

/-- A session leaves a chunk with an event in it, shared. -/
def Op.leftShared : List Op :=
  [.call (.newCollector {}), .rent 0,
    .writeRental 0 { id := 1, thread := 1, timestamp := 5, kind := .instant, flow := noFlow,
                     value := 0, sequence := 0 },
    .shareRental 0, .call (.freeze 0)]

/-- Four chunks are offered: one that is shared, one that is too large, the one
left with an event in it, and one built anew. -/
def Op.fourOffers : List Op :=
  [.takeShare, .makeShare 2, .makeShare 7, .cloneShare 1, .returnShare 1, .returnShare 3,
    .returnShare 0, .returnShare 2, .takeShare]

/-- The first two are not taken back. The others are, and the last is taken
first. -/
theorem pool_is_stack_fourOffers :
    (∀ o ∈ Op.fourOffers, o.isDirect = true) ∧
      poolEvents (runOps 2 Op.leftShared) Op.fourOffers =
        [.rented 1, .returned 0, .returned 2, .rented 2] ∧
      Stacks [.rented 1, .returned 0, .returned 2, .rented 2] [0] :=
  ⟨by decide, by decide, (pool_is_stack 2 Op.leftShared Op.fourOffers (by decide)).1⟩

end EventTrace
