import EventTrace.Proofs.Depot.Writing
/-!
# Depot — runs of operations

A run is a list of operations in any order, by any number of sessions over
one depot: writers that come, write and go, chunks rented and given back by
hand, shares of any chunk, sessions closed and frozen. Stages of an operation
are operations too, so what holds after every run holds in the middle of one
as well. **Ownership is exclusive after every run** (`owned_runOps`).
-/

namespace EventTrace

open Depot

/-! ## Operations -/

/-- What is asked of a depot by sessions and their writers. -/
inductive Call where
  | newCollector (options : Options)
  | newWriter (k : CollectorId) (thread : Int) (name : Option String)
  | write (w : WriterId) (e : Emission) (now : Reading)
  | detach (w : WriterId)
  | dropWriter (w : WriterId)
  | close (k : CollectorId)
  | closeWriters (k : CollectorId)
  | freeze (k : CollectorId)
deriving Inhabited

/-- The depot after a call. A writer needs a collector that is there. -/
def Call.apply (d : Depot) : Call → Depot
  | newCollector options => (d.newCollector options).2
  | newWriter k thread name =>
    if k < d.collectors.size then (d.newWriter k thread name).2 else d
  | write w e now => (d.write w e now).2
  | detach w => d.detach w
  | dropWriter w => d.dropWriter w
  | close k => d.close k
  | closeWriters k => (d.closeWriters k).2
  | freeze k => (d.freeze k).2

/-- Everything that can be asked of a depot. -/
inductive Op where
  | call (c : Call)
  | rent (k : CollectorId)
  | writeRental (r : RentalId) (e : Event)
  | release (k : CollectorId) (r : RentalId)
  | dropRental (r : RentalId)
  | shareRental (r : RentalId)
  | markIdle (k : CollectorId) (c : ChunkId)
  | takeShare
  | makeShare (capacity : Nat)
  | cloneShare (h : ShareId)
  | dropShare (h : ShareId)
  | resetShare (h : ShareId)
  | returnShare (h : ShareId)
  | offerEvent (k : CollectorId)
  | recordDropped (k : CollectorId) (reason : Reason)
  | recordSampledOut (k : CollectorId)
  | recordRateLimited (k : CollectorId)
  | nameThread (k : CollectorId) (thread : Int) (name : String)
  | newLink
  | registerLink (k : CollectorId) (l : LinkId)
  | closeLink (l : LinkId)
  /-- A stage of a write: the event is screened. -/
  | screen (w : WriterId) (e : Emission) (arrival : Int)
  /-- A stage of a write: the writer's chunk is let go. -/
  | letGo (w : WriterId)
  /-- A stage of a write: the writer sees to it that it holds room. -/
  | holdRoom (w : WriterId)
  /-- A stage of a write, a rental or an admission: a chunk is given up. -/
  | evict (k : CollectorId)
deriving Inhabited

/-- The session of a writer, none if it has left. -/
def Depot.session? (d : Depot) (w : WriterId) : Option CollectorId :=
  (d.writer? w).bind Writer.collector

/-- The depot after an operation. -/
def Op.apply (d : Depot) : Op → Depot
  | call c => c.apply d
  | rent k => (d.rent k).2
  | writeRental r e => (d.writeRental r e).2
  | release k r => d.release k r
  | dropRental r => d.dropRental r
  | shareRental r => (d.shareRental r).2
  | markIdle k c => d.markIdle k c
  | takeShare => d.takeShare.2
  | makeShare capacity => (d.makeShare capacity).2
  | cloneShare h =>
    match d.share? h with
    | some c => (d.addShare c).2
    | none => d
  | dropShare h => d.dropShare h
  | resetShare h => (d.resetShare h).2
  | returnShare h => (d.returnShare h).2
  | offerEvent k => (d.admitEvent k).2
  | recordDropped k reason => d.recordDropped k reason
  | recordSampledOut k => d.recordSampledOut k
  | recordRateLimited k => d.recordRateLimited k
  | nameThread k thread name => d.nameThread k thread name
  | newLink => d.newLink.2
  | registerLink k l => d.registerLink k l
  | closeLink l => d.closeLink l
  | screen w e arrival =>
    match d.writer? w with
    | some s => d.rescreen w (s.screen.screen e.id e.kind arrival).2
    | none => d
  | letGo w =>
    match d.session? w with
    | some k => d.letGo w k
    | none => d
  | holdRoom w =>
    match d.session? w with
    | some k => (d.holdRoom w k).2
    | none => d
  | evict k => (d.evictOldest? k).getD d

/-- The depot after a run over a pool of chunks of some capacity. -/
def runOps (capacity : Nat) (ops : List Op) : Depot :=
  ops.foldl Op.apply (Depot.ofCapacity capacity)

namespace Depot

namespace Owned

variable {d d' : Depot} {c x : ChunkId} {k j : CollectorId} {w v : WriterId} {s : Writer}

/-! ## Calls -/

theorem post (h : Owned d) (hw : d.writer? w = some s) (hc : s.chunk = some c) (event : Event) :
    Owned (d.post w c event) := by
  have hfilling : 1 ≤ d.filling c := filling_pos hw hc
  have hfree : c ∉ d.free := h.not_mem_free (by unfold writable; omega)
  have hstepped : Owned (d.modifyWriter w fun s => { s with sequence := s.sequence + 1 }) :=
    h.modifyWriter fun _ => .inl rfl
  refine hstepped.modifyChunk ?_ hfree
  intro ch
  unfold Chunk.push
  split <;> rfl

theorem accept (h : Owned d) (hw : d.writer? w = some s) (hc : s.chunk = some c) (event : Event) :
    Owned (d.accept k w c event) := by
  have hcounted : Owned (d.modifyCollector k Collector.countEvent) :=
    h.modifyCollector fun _ => Nat.le_refl _
  exact hcounted.post hw hc event

theorem writeEnds_owned {e : Emission} {now : Reading} {r : Bool × Depot} (h : Owned d)
    (hends : WriteEnds d w e now r) : Owned r.2 := by
  have hscreened : ∀ screen, Owned (d.rescreen w screen) := fun _ =>
    h.modifyWriter fun _ => .inl rfl
  cases hends with
  | closed _ hmoves => exact h.moves hmoves
  | filtered => exact hscreened _
  | refused _ _ _ _ _ hbefore hrefuses hafter =>
    exact (((hscreened _).moves hbefore).alike hrefuses.toAlike).moves hafter
  | written _ _ _ _ _ hbefore hw _ _ hagree =>
    exact (((hscreened _).moves hbefore).accept hw rfl _).alike hagree.toAlike

theorem newCollector (h : Owned d) (o : Options) : Owned (d.newCollector o).2 := by
  refine h.mono rfl rfl rfl ?_ (fun _ => Nat.le_refl _) (fun _ => Nat.le_refl _)
  intro c
  simp [ledgered, Depot.newCollector]

theorem enlist (h : Owned d) (hs : s.chunk = none) : Owned (d.enlist s) := by
  refine h.mono rfl rfl rfl (fun _ => Nat.le_refl _) ?_ (fun _ => Nat.le_refl _)
  intro c
  refine Nat.add_le_add_left ?_ (heldIn d.rentals c)
  simp [filling, Depot.enlist, hs]

theorem newWriter (h : Owned d) (k : CollectorId) (thread : Int) (name : Option String) :
    Owned (d.newWriter k thread name).2 := by
  obtain ⟨d₁, hagree, heq⟩ := newWriter_eq d k thread name
  rw [heq]
  exact (h.alike hagree.toAlike).enlist rfl

/-- Freezing lets the entries of a ledger go one by one. -/
theorem freezeEntries (entries : List LedgerEntry) (frozen : Frozen) (h : Owned d)
    (hledger : (d.collector k).ledger = entries) :
    Owned (Depot.freezeEntries k entries frozen d).2 := by
  induction entries generalizing d frozen with
  | nil => exact h
  | cons entry rest ih =>
    have hentered : d.Ledgers k entry.chunk :=
      ⟨entry, by rw [hledger]; exact List.mem_cons_self, rfl⟩
    have hremoved : Owned (d.modifyCollector k fun s => { s with ledger := rest }) := by
      refine h.modifyCollector ?_
      intro c
      rw [hledger, List.countP_cons]
      exact Nat.le_add_right _ _
    have hoffered := hremoved.giveBack (h.lt_size_of_ledgers hentered)
    have hrest : (((d.modifyCollector k fun s => { s with ledger := rest }).giveBack
        entry.chunk).2.collector k).ledger = rest := by
      rw [collector, giveBack_collectors, ← collector,
        collector_modifyCollector (Depot.lt_size_of_ledgers hentered)]
    unfold Depot.freezeEntries
    dsimp only
    split
    · next d₁ hback =>
      rw [hback] at hoffered hrest
      exact ih _ hoffered hrest
    · next d₁ hback =>
      rw [hback] at hoffered hrest
      exact ih _ hoffered hrest

theorem freeze (h : Owned d) (k : CollectorId) : Owned (d.freeze k).2 :=
  (h.freezeEntries (k := k) _ {} rfl).alike (.note fun _ => rfl)

/-- **Every call keeps chunks owned.** -/
theorem call (h : Owned d) (c : Call) : Owned (c.apply d) := by
  cases c with
  | newCollector o => exact h.newCollector o
  | newWriter k thread name =>
    dsimp only [Call.apply]
    split
    · exact h.newWriter k thread name
    · exact h
  | write w e now => exact writeEnds_owned h (h.writeEnds w e now)
  | detach w => exact h.moves (moves_detach d w)
  | dropWriter w => exact h.moves (moves_dropWriter d w)
  | close k => exact h.turn (.close d)
  | closeWriters k => exact h.alike (agree_closeWriters d k).toAlike
  | freeze k => exact h.freeze k

/-! ## Chunks rented by hand, and shares -/

theorem lt_size_of_heldIn (h : Owned d)
    (hc : 1 ≤ heldIn d.rentals c ∨ 1 ≤ heldIn d.shares c) : c < d.chunks.size := by
  refine h.lt_size ?_
  rw [references_eq, writable]
  omega

theorem not_mem_free_of_heldIn (h : Owned d)
    (hc : 1 ≤ heldIn d.rentals c ∨ 1 ≤ heldIn d.shares c) : c ∉ d.free := by
  refine h.not_mem_free ?_
  rw [writable]
  omega

theorem dropRental (h : Owned d) (r : RentalId) : Owned (d.dropRental r) :=
  h.mono rfl rfl rfl (fun _ => Nat.le_refl _)
    (fun _ => Nat.add_le_add_right (heldIn_drop_le d.rentals r) _) (fun _ => Nat.le_refl _)

theorem dropShare (h : Owned d) (q : ShareId) : Owned (d.dropShare q) :=
  h.mono rfl rfl rfl (fun _ => Nat.le_refl _) (fun _ => Nat.le_refl _)
    (fun _ => heldIn_drop_le d.shares q)

theorem rent (h : Owned d) (k : CollectorId) : Owned (d.rent k).2 := by
  cases hrent : d.rent k with
  | mk o d' =>
    cases o with
    | none => exact h.moves (Moves.of_turns (rent_none hrent))
    | some r =>
      obtain ⟨d₁, d₂, hturns, -, -, hagree, -, rfl⟩ := rent_some hrent
      obtain ⟨hentered, hfresh⟩ := (h.moves (Moves.of_turns hturns)).enterChunk k
      exact (hentered.alike hagree.toAlike).lend (hfresh.alike hagree.toAlike)

theorem release (h : Owned d) (k : CollectorId) (r : RentalId) : Owned (d.release k r) := by
  unfold Depot.release
  split
  · next c hr =>
    exact (h.dropRental r).releaseChunk (h.lt_size_of_heldIn (.inl (heldIn_of_rental? hr)))
  · exact h

theorem writeRental (h : Owned d) (r : RentalId) (e : Event) : Owned (d.writeRental r e).2 := by
  unfold Depot.writeRental
  split
  · next c hr =>
    refine h.modifyChunk ?_ (h.not_mem_free_of_heldIn (.inl (heldIn_of_rental? hr)))
    intro ch
    unfold Chunk.push
    split <;> rfl
  · exact h

theorem shareRental (h : Owned d) (r : RentalId) : Owned (d.shareRental r).2 := by
  unfold Depot.shareRental
  split
  · next c hr =>
    have hheld := heldIn_of_rental? hr
    exact (h.dropRental r).addShare (h.not_mem_free_of_heldIn (.inl hheld))
      (h.lt_size_of_heldIn (.inl hheld))
  · exact h

theorem takeShare (h : Owned d) : Owned d.takeShare.2 := by
  obtain ⟨htaken, hfresh, -⟩ := h.take
  exact htaken.addShare hfresh.not_free hfresh.lt_size

theorem makeShare (h : Owned d) (capacity : Nat) : Owned (d.makeShare capacity).2 := by
  refine (h.pushChunk capacity).addShare ?_ (by simp)
  intro hfree
  have hsize := h.lt_size (c := d.chunks.size) (by rw [h.alone _ hfree]; omega)
  exact absurd hsize (Nat.lt_irrefl _)

theorem resetShare (h : Owned d) (q : ShareId) : Owned (d.resetShare q).2 := by
  unfold Depot.resetShare
  split
  · next c hq =>
    split
    · exact h.modifyChunk (fun _ => rfl) (h.not_mem_free_of_heldIn (.inr (heldIn_of_share? hq)))
    · exact h
  · exact h

theorem returnShare (h : Owned d) (q : ShareId) : Owned (d.returnShare q).2 := by
  unfold Depot.returnShare
  split
  · next c hq =>
    exact (h.dropShare q).giveBack (h.lt_size_of_heldIn (.inr (heldIn_of_share? hq)))
  · exact h

/-! ## Operations -/

theorem admitEvent (h : Owned d) (k : CollectorId) : Owned (d.admitEvent k).2 := by
  cases hclosed : (d.collector k).closed with
  | true => rwa [admitEvent_of_closed hclosed]
  | false =>
    cases hadmit : d.admitEvent k with
    | mk ok d' =>
      cases ok with
      | true =>
        obtain ⟨d₁, hturns, -, -, hagree⟩ := admitEvent_true hadmit
        have hcounted := (h.moves (Moves.of_turns hturns)).modifyCollector (k := k)
          (f := Collector.countEvent) fun _ => Nat.le_refl _
        exact hcounted.alike hagree.toAlike
      | false =>
        obtain ⟨d₁, reason, hbefore, hafter⟩ := admitEvent_false hadmit hclosed
        have hrefused := (h.moves (Moves.of_turns hbefore)).alike
          (refuses_recordDropped d₁ k reason).toAlike
        exact hrefused.moves (Moves.of_turns hafter)

/-- **Every operation keeps chunks owned.** -/
theorem op (h : Owned d) (o : Op) : Owned (o.apply d) := by
  cases o with
  | call c => exact h.call c
  | rent k => exact h.rent k
  | writeRental r e => exact h.writeRental r e
  | release k r => exact h.release k r
  | dropRental r => exact h.dropRental r
  | shareRental r => exact h.shareRental r
  | markIdle k c => exact h.markIdle k c
  | takeShare => exact h.takeShare
  | makeShare capacity => exact h.makeShare capacity
  | cloneShare q =>
    dsimp only [Op.apply]
    split
    · next c hq =>
      have hheld := heldIn_of_share? hq
      exact h.addShare (h.not_mem_free_of_heldIn (.inr hheld)) (h.lt_size_of_heldIn (.inr hheld))
    · exact h
  | dropShare q => exact h.dropShare q
  | resetShare q => exact h.resetShare q
  | returnShare q => exact h.returnShare q
  | offerEvent k => exact h.admitEvent k
  | recordDropped k reason => exact h.alike (refuses_recordDropped d k reason).toAlike
  | recordSampledOut k => exact h.alike (refuses_recordSampledOut d k).toAlike
  | recordRateLimited k => exact h.alike (refuses_recordRateLimited d k).toAlike
  | nameThread k thread name => exact h.alike (agree_nameThread d k thread name).toAlike
  | newLink => exact h.alike (Agree.links d _).toAlike
  | registerLink k l => exact h.alike (agree_registerLink d k l).toAlike
  | closeLink l => exact h.alike (agree_closeLink d l).toAlike
  | screen w e arrival =>
    dsimp only [Op.apply]
    split
    · exact h.modifyWriter fun _ => .inl rfl
    · exact h
  | letGo w =>
    dsimp only [Op.apply]
    split
    · exact h.letGo w _
    · exact h
  | holdRoom w =>
    dsimp only [Op.apply]
    split
    · next k hk =>
      obtain ⟨s, hw, hs⟩ := Option.bind_eq_some_iff.mp hk
      exact h.moves (moves_holdRoom hw hs)
    · exact h
  | evict k =>
    dsimp only [Op.apply]
    cases hevict : d.evictOldest? k with
    | none => exact h
    | some d' => exact h.evict hevict

end Owned

end Depot

/-- Chunks stay owned through every run. -/
theorem owned_runOps (capacity : Nat) (ops : List Op) : Owned (runOps capacity ops) := by
  have hrun : ∀ d, Owned d → Owned (ops.foldl Op.apply d) := by
    induction ops with
    | nil => exact fun _ h => h
    | cons o ops ih => exact fun d h => ih (o.apply d) (h.op o)
  exact hrun _ (.ofCapacity capacity)

end EventTrace
