import EventTrace.Proofs.Depot.Operations
/-!
# Depot — what is marked idle, and what is not

Exclusive ownership does not keep an eviction from a chunk that is still
written to: whoever marks a chunk idle vouches for it. `Idle` says that no one
can write to what is marked idle. `Standing` says what is known of a chunk
whose rental has not ended: it is an active entry that no writer fills, or
its collector is closed and will never enter it again. Both survive every
operation that ends no rental and freezes nothing (`calm_plain`).
-/

namespace EventTrace

open Depot

/-- Operations that end no rental and freeze nothing. -/
def Op.isPlain : Op → Bool
  | call (.freeze _) => false
  | rent _ | release .. | dropRental _ | shareRental _ | markIdle .. => false
  | _ => true

namespace Depot

variable {d d' e : Depot} {c x : ChunkId} {k j : CollectorId} {w v : WriterId} {s : Writer}
  {n : Nat}

/-! ## What is marked idle, and what is not -/

/-- No one can write to what is marked idle. -/
def Idle (d : Depot) : Prop :=
  ∀ k c, ⟨c, false⟩ ∈ (d.collector k).ledger → d.writable c = 0

/-- A chunk that was rented of a collector, and is rented so many times now:
it is an active entry that no writer fills, or it has left the ledger of a
collector that is closed. -/
def Standing (d : Depot) (k : CollectorId) (c : ChunkId) (n : Nat) : Prop :=
  (⟨c, true⟩ ∈ (d.collector k).ledger ∧ d.filling c = 0 ∧ heldIn d.rentals c = n) ∨
    (¬ d.Ledgers k c ∧ (d.collector k).closed = true)

/-- Ledgers, writers and rentals are as they were. -/
structure Still (d d' : Depot) : Prop where
  ledger : ∀ k, (d'.collector k).ledger = (d.collector k).ledger
  closed : ∀ k, (d.collector k).closed = true → (d'.collector k).closed = true
  filling : ∀ c, d'.filling c ≤ d.filling c
  rentals : d'.rentals = d.rentals

namespace Still

theorem of_alike (h : Alike d d') : Still d d' where
  ledger := h.ledger
  closed k hk := (h.closed k).trans hk
  filling c := Nat.le_of_eq (h.filling c)
  rentals := h.rentals

theorem trans (h : Still d d') (h' : Still d' e) : Still d e where
  ledger k := (h'.ledger k).trans (h.ledger k)
  closed k hk := h'.closed k (h.closed k hk)
  filling c := Nat.le_trans (h'.filling c) (h.filling c)
  rentals := h'.rentals.trans h.rentals

theorem idle (h : Still d d') (hd : Idle d) : Idle d' := by
  intro k c hmem
  rw [h.ledger] at hmem
  have hwritable := hd k c hmem
  have hfilling := h.filling c
  unfold writable at hwritable ⊢
  rw [h.rentals]
  omega

theorem standing (h : Still d d') (hd : Standing d k c n) : Standing d' k c n := by
  rcases hd with ⟨hmem, hfilling, hheld⟩ | ⟨hgone, hclosed⟩
  · refine .inl ⟨by rwa [h.ledger], ?_, by rw [h.rentals, hheld]⟩
    have := h.filling c
    omega
  · refine .inr ⟨?_, h.closed k hclosed⟩
    rwa [Ledgers, h.ledger]

theorem modifyCollector {f : Collector → Collector} (hl : ∀ s, (f s).ledger = s.ledger)
    (hc : ∀ s, s.closed = true → (f s).closed = true) : Still d (d.modifyCollector k f) where
  ledger := congr_modifyCollector Collector.ledger hl
  closed j hj := by
    rcases collector_modifyCollector_cases d k j f with hsame | hchanged
    · rwa [hsame]
    · rw [hchanged, hc _ hj]
  filling _ := Nat.le_refl _
  rentals := rfl

theorem close (d : Depot) (k : CollectorId) : Still d (d.close k) :=
  .modifyCollector (fun _ => rfl) (fun _ _ => rfl)

theorem modifyChunk (d : Depot) (c : ChunkId) (f : Chunk → Chunk) :
    Still d (d.modifyChunk c f) where
  ledger _ := rfl
  closed _ hk := hk
  filling _ := Nat.le_refl _
  rentals := rfl

theorem modifyWriter {f : Writer → Writer} (hf : ∀ s, (f s).chunk = s.chunk) :
    Still d (d.modifyWriter w f) where
  ledger _ := rfl
  closed _ hk := hk
  filling _ := Nat.le_of_eq (filling_modifyWriter_of_eq hf)
  rentals := rfl

theorem accept (d : Depot) (k : CollectorId) (w : WriterId) (c : ChunkId) (event : Event) :
    Still d (d.accept k w c event) := by
  have hcounted : Still d (d.modifyCollector k Collector.countEvent) :=
    .modifyCollector (fun _ => rfl) fun _ => id
  have hstepped : Still (d.modifyCollector k Collector.countEvent)
      ((d.modifyCollector k Collector.countEvent).modifyWriter w fun s =>
        { s with sequence := s.sequence + 1 }) := .modifyWriter fun _ => rfl
  exact (hcounted.trans hstepped).trans (.modifyChunk _ c _)

theorem leave (d : Depot) (w : WriterId) : Still d (d.leave w) := .modifyWriter fun _ => rfl

theorem shares (d : Depot) (holdings : Array Holding) :
    Still d { d with shares := holdings } where
  ledger _ := rfl
  closed _ hk := hk
  filling _ := Nat.le_refl _
  rentals := rfl

theorem take (d : Depot) : Still d d.take.2 where
  ledger k := by simp [collector]
  closed k hk := by simpa [collector] using hk
  filling c := by simp [Depot.filling]
  rentals := take_rentals d

theorem giveBack (d : Depot) (c : ChunkId) : Still d (d.giveBack c).2 where
  ledger k := by simp [collector]
  closed k hk := by simpa [collector] using hk
  filling c := by simp [Depot.filling]
  rentals := giveBack_rentals d c

theorem newCollector (d : Depot) (o : Options) : Still d (d.newCollector o).2 where
  ledger := congr_newCollector Collector.ledger o rfl
  closed k hk := (congr_newCollector Collector.closed o rfl k).trans hk
  filling _ := Nat.le_refl _
  rentals := rfl

theorem enlist (hs : s.chunk = none) : Still d (d.enlist s) where
  ledger _ := rfl
  closed _ hk := hk
  filling c := by simp [Depot.filling, Depot.enlist, hs]
  rentals := rfl

end Still

/-- An eviction takes an entry from one ledger and gives no one a chunk. -/
theorem Idle.evict (hd : Idle d) (hevict : d.evictOldest? k = some d') : Idle d' := by
  intro j c hmem
  have hsame : d'.writable c = d.writable c := by
    rw [writable, writable, filling, filling, writers_evictOldest? hevict,
      rentals_evictOldest? hevict]
  rw [hsame]
  exact hd j c ((sublist_evictOldest? hevict j).subset hmem)

/-! ## Moves -/

/-- Whatever is filled after a writer took a chunk up was filled before, or
is that chunk. -/
theorem filling_hold_le (d : Depot) (w : WriterId) (k : CollectorId)
    (hc : c ≠ (d.enterChunk k).1) : (d.hold w k).filling c ≤ d.filling c := by
  have hentered : (d.enterChunk k).2.filling c = d.filling c := by
    rw [filling, enterChunk_writers, ← filling]
  unfold hold
  cases hw : (d.enterChunk k).2.writer? w with
  | none => exact Nat.le_of_eq ((filling_modifyWriter_of_none hw).trans hentered)
  | some s =>
    have hsum := filling_modifyWriter (f := fun s => { s with chunk := some (d.enterChunk k).1 })
      (c := c) hw
    have hnew : ((some (d.enterChunk k).1 : Option ChunkId) == some c) = false := by
      simpa using Ne.symm hc
    simp only [hnew, Bool.toNat_false] at hsum
    omega

/-- A writer that parts with its chunk fills nothing more than before. -/
theorem Still.part (d : Depot) (w : WriterId) :
    Still d (d.modifyWriter w fun s => { s with chunk := none }) where
  ledger _ := rfl
  closed _ hk := hk
  filling c := by
    cases hw : d.writer? w with
    | none => exact Nat.le_of_eq (filling_modifyWriter_of_none hw)
    | some s =>
      -- the writer counts for its chunk before and for none after
      have hsum := filling_modifyWriter (f := fun s => { s with chunk := none }) (c := c) hw
      have hnone : ((none : Option ChunkId) == some c) = false := rfl
      simp only [hnone, Bool.toNat_false] at hsum
      omega
  rentals := rfl

/-- No one can write to the chunk that a writer parted with. -/
theorem Owned.writable_part (h : Owned d) (hw : d.writer? w = some s) (hx : s.chunk = some x) :
    (d.modifyWriter w fun s => { s with chunk := none }).writable x = 0 := by
  have hsum := filling_modifyWriter (f := fun s => { s with chunk := none }) (c := x) hw
  have hnone : ((none : Option ChunkId) == some x) = false := rfl
  simp only [hnone, hx, beq_self_eq_true, Bool.toNat_false, Bool.toNat_true] at hsum
  -- at most one can write to a chunk, and that was the writer
  have hone := h.writable_le x
  show heldIn d.rentals x + _ = 0
  unfold writable at hone
  omega

theorem Still.vacate (d : Depot) (w : WriterId) : Still d (d.vacate w) where
  ledger _ := rfl
  closed _ hk := hk
  filling c := by
    show (d.writers.modify w fun _ => none).countP _ ≤ d.writers.countP _
    cases hw : d.writers[w]? with
    | none => exact Nat.le_of_eq (by rw [modify_of_none hw])
    | some s =>
      have hsum := countP_modify (p := fun w : Option Writer => w.any (·.chunk == some c))
        (f := fun _ => none) hw
      rw [Option.any_none, Bool.toNat_false] at hsum
      omega
  rentals := rfl

theorem rentals_releaseChunk (d : Depot) (k : CollectorId) (c : ChunkId) :
    (d.releaseChunk k c).rentals = d.rentals := by
  unfold releaseChunk
  split
  · exact giveBack_rentals d c
  · rfl

/-- **What is let go may be idle afterwards**, and nothing else becomes
so. -/
theorem Idle.releaseChunk (hd : Idle d) (hx : d.writable x = 0) :
    Idle (d.releaseChunk k x) := by
  intro j c hmem
  have hsame : (d.releaseChunk k x).writable c = d.writable c := by
    rw [writable, writable, filling, releaseChunk_writers, rentals_releaseChunk, ← filling]
  rw [hsame]
  rcases mem_ledger_releaseChunk hmem with hmem | ⟨-, heq⟩
  · exact hd j c hmem
  · obtain rfl : c = x := congrArg LedgerEntry.chunk heq
    exact hx

/-- **No move lets an idle chunk be written to.** -/
theorem Owned.idle_move (h : Owned d) (hd : Idle d) (hm : Move d d') : Idle d' := by
  cases hm with
  | turn k ht =>
    cases ht with
    | keep hagree => exact (Still.of_alike hagree.toAlike).idle hd
    | close => exact (Still.close d k).idle hd
    | evict _ hevict => exact hd.evict hevict
  | @hold w s k hw hs hnone hopen =>
    intro j c hmem
    rcases mem_ledger_enterChunk hmem with hmem | ⟨-, heq⟩
    · -- an entry that is idle was there before, so its chunk is not the fresh one
      have hc : c ≠ (d.enterChunk k).1 := by
        rintro rfl
        exact h.not_ledgers_enterChunk k j (ledgers_of_mem hmem)
      have hwritable := hd j c hmem
      have hfilling := filling_hold_le d w k hc
      have hrentals : (d.hold w k).rentals = d.rentals := take_rentals d
      unfold writable at hwritable ⊢
      rw [hrentals]
      omega
    · exact absurd (congrArg LedgerEntry.active heq) Bool.false_ne_true
  | @letGo w s k hw hs =>
    unfold Depot.letGo
    rw [hw, Option.bind_some]
    cases hx : s.chunk with
    | none => exact hd
    | some x => exact ((Still.part d w).idle hd).releaseChunk (h.writable_part hw hx)
  | leave => exact (Still.leave d _).idle hd
  | vacate => exact (Still.vacate d _).idle hd

/-- An eviction takes no active entry. -/
theorem Standing.evict (hd : Standing d k c n) (hevict : d.evictOldest? j = some d') :
    Standing d' k c n := by
  have hfilling : d'.filling c = d.filling c := by
    rw [filling, filling, writers_evictOldest? hevict]
  rcases hd with ⟨hmem, hnone, hheld⟩ | ⟨hgone, hclosed⟩
  · exact .inl ⟨mem_evictOldest?_of_active hevict hmem, hfilling.trans hnone,
      by rw [rentals_evictOldest? hevict, hheld]⟩
  · exact .inr ⟨fun hin => hgone (ledgers_of_evictOldest? hevict hin),
      by rw [closed_evictOldest? hevict, hclosed]⟩

/-- Letting another chunk go takes no entry. -/
theorem Standing.releaseChunk (hd : Standing d k c n) (hx : d.Ledgers k c → c ≠ x) :
    Standing (d.releaseChunk j x) k c n := by
  have hfilling : (d.releaseChunk j x).filling c = d.filling c := by
    rw [filling, filling, releaseChunk_writers]
  have hclosed : ((d.releaseChunk j x).collector k).closed = (d.collector k).closed :=
    releaseChunk_closed d j k x
  rcases hd with ⟨hmem, hnone, hheld⟩ | ⟨hgone, hshut⟩
  · exact .inl ⟨mem_releaseChunk_of_mem hmem (hx (ledgers_of_mem hmem)), hfilling.trans hnone,
      by rw [rentals_releaseChunk, hheld]⟩
  · exact .inr ⟨fun hin => hgone (ledgers_releaseChunk.mp hin), hclosed.trans hshut⟩

/-- **No move disturbs a rental.** -/
theorem Owned.standing_move (h : Owned d) (hd : Standing d k c n) (hm : Move d d') :
    Standing d' k c n := by
  cases hm with
  | turn j ht =>
    cases ht with
    | keep hagree => exact (Still.of_alike hagree.toAlike).standing hd
    | close => exact (Still.close d j).standing hd
    | evict _ hevict => exact hd.evict hevict
  | @hold w s j hw hs hnone hopen =>
    rcases hd with ⟨hmem, hfilling, hheld⟩ | ⟨hgone, hclosed⟩
    · have hc : c ≠ (d.enterChunk j).1 := by
        rintro rfl
        exact h.not_ledgers_enterChunk j k (ledgers_of_mem hmem)
      have hle := filling_hold_le d w j hc
      refine .inl ⟨mem_enterChunk_of_mem hmem, by omega, ?_⟩
      rw [← hheld]
      exact congrArg (heldIn · c) (take_rentals d)
    · -- the ledger it left is of a closed session, and only an open one enters a chunk
      have hne : k ≠ j := by
        rintro rfl
        rw [hopen] at hclosed
        exact absurd hclosed Bool.false_ne_true
      refine .inr ⟨?_, by rw [hold_closed, hclosed]⟩
      have hsame : (d.hold w j).collector k = d.collector k := collector_enterChunk_of_ne hne
      rwa [Ledgers, hsame]
  | @letGo w s j hw hs =>
    unfold Depot.letGo
    rw [hw, Option.bind_some]
    cases hx : s.chunk with
    | none => exact hd
    | some x =>
      -- no writer fills a chunk that was rented out, so the one let go is another
      refine ((Still.part d w).standing hd).releaseChunk ?_
      intro hin
      rintro rfl
      have hfills := filling_pos hw hx
      rcases hd with ⟨-, hfilling, -⟩ | ⟨hgone, -⟩
      · omega
      · exact hgone hin
  | leave => exact (Still.leave d _).standing hd
  | vacate => exact (Still.vacate d _).standing hd

/-! ## Plain operations -/

/-- No one becomes able to write to an idle chunk, and no rental is
disturbed. -/
structure Calm (d d' : Depot) : Prop where
  idle : Idle d → Idle d'
  standing : ∀ k c n, Standing d k c n → Standing d' k c n
  rentals : d'.rentals = d.rentals

namespace Calm

theorem trans (h : Calm d d') (h' : Calm d' e) : Calm d e where
  idle hd := h'.idle (h.idle hd)
  standing k c n hd := h'.standing k c n (h.standing k c n hd)
  rentals := h'.rentals.trans h.rentals

theorem of_still (h : Still d d') : Calm d d' where
  idle := h.idle
  standing _ _ _ := h.standing
  rentals := h.rentals

theorem refl (d : Depot) : Calm d d := .of_still (.of_alike (.refl d))

theorem of_alike (h : Alike d d') : Calm d d' := .of_still (.of_alike h)

theorem evict (h : d.evictOldest? k = some d') : Calm d d' where
  idle hd := hd.evict h
  standing _ _ _ hd := hd.evict h
  rentals := rentals_evictOldest? h

end Calm

theorem rentals_move (hm : Move d d') : d'.rentals = d.rentals := by
  cases hm with
  | turn k ht =>
    cases ht with
    | keep hagree => exact hagree.rentals
    | close => rfl
    | evict _ hevict => exact rentals_evictOldest? hevict
  | hold => exact take_rentals d
  | letGo =>
    unfold letGo
    split
    · rfl
    · exact rentals_releaseChunk _ _ _
  | leave => rfl
  | vacate => rfl

namespace Owned

theorem calm_moves (h : Owned d) (hm : Moves d d') : Calm d d' := by
  induction hm with
  | refl => exact .refl d
  | tail hmoves hm ih =>
    have howned := h.moves hmoves
    exact ih.trans ⟨fun hd => howned.idle_move hd hm,
      fun _ _ _ hd => howned.standing_move hd hm, rentals_move hm⟩

theorem calm_writeEnds {e : Emission} {now : Reading} {r : Bool × Depot} (h : Owned d)
    (hends : WriteEnds d w e now r) : Calm d r.2 := by
  have hscreened : ∀ screen, Calm d (d.rescreen w screen) := fun screen =>
    .of_still (.modifyWriter fun _ => rfl)
  have hstays : ∀ screen, Owned (d.rescreen w screen) := fun screen =>
    h.modifyWriter fun _ => .inl rfl
  cases hends with
  | closed _ hmoves => exact h.calm_moves hmoves
  | filtered => exact hscreened _
  | refused _ _ _ _ _ hbefore hrefuses hafter =>
    have hmoved := (hscreened _).trans ((hstays _).calm_moves hbefore)
    have howned := ((hstays _).moves hbefore).alike hrefuses.toAlike
    exact (hmoved.trans (.of_alike hrefuses.toAlike)).trans (howned.calm_moves hafter)
  -- accepting an event moves no entry and no writer from its chunk
  | written _ _ _ _ _ hbefore _ _ _ hagree =>
    have hmoved := (hscreened _).trans ((hstays _).calm_moves hbefore)
    exact (hmoved.trans (.of_still (.accept _ _ _ _ _))).trans (.of_alike hagree.toAlike)

theorem calm_admitEvent (h : Owned d) (k : CollectorId) : Calm d (d.admitEvent k).2 := by
  cases hclosed : (d.collector k).closed with
  | true =>
    rw [admitEvent_of_closed hclosed]
    exact .refl d
  | false =>
    cases hadmit : d.admitEvent k with
    | mk ok d' =>
      cases ok with
      | true =>
        obtain ⟨d₁, hturns, -, -, hagree⟩ := admitEvent_true hadmit
        have hcounted : Calm d₁ (d₁.modifyCollector k Collector.countEvent) :=
          .of_still (.modifyCollector (fun _ => rfl) fun _ => id)
        exact ((h.calm_moves (Moves.of_turns hturns)).trans hcounted).trans
          (.of_alike hagree.toAlike)
      | false =>
        obtain ⟨d₁, reason, hbefore, hafter⟩ := admitEvent_false hadmit hclosed
        have hrefuses := (refuses_recordDropped d₁ k reason).toAlike
        have howned := (h.moves (Moves.of_turns hbefore)).alike hrefuses
        exact ((h.calm_moves (Moves.of_turns hbefore)).trans (.of_alike hrefuses)).trans
          (howned.calm_moves (Moves.of_turns hafter))

/-- Calls but freezes disturb no rental. -/
theorem calm_call (h : Owned d) {c : Call} (hc : (Op.call c).isPlain = true) :
    Calm d (c.apply d) := by
  cases c with
  | newCollector o => exact .of_still (.newCollector d o)
  | newWriter k thread name =>
    dsimp only [Call.apply]
    split
    · obtain ⟨d₁, hagree, heq⟩ := newWriter_eq d k thread name
      rw [heq]
      exact (Calm.of_alike hagree.toAlike).trans (.of_still (.enlist rfl))
    · exact .refl d
  | write w e now => exact h.calm_writeEnds (h.writeEnds w e now)
  | detach w => exact h.calm_moves (moves_detach d w)
  | dropWriter w => exact h.calm_moves (moves_dropWriter d w)
  | close k => exact .of_still (.close d k)
  | closeWriters k => exact .of_alike (agree_closeWriters d k).toAlike
  | freeze k => exact absurd hc Bool.false_ne_true

theorem calm_writeRental (d : Depot) (r : RentalId) (e : Event) :
    Calm d (d.writeRental r e).2 := by
  unfold Depot.writeRental
  split
  · exact .of_still (.modifyChunk d _ _)
  · exact .refl d

theorem calm_resetShare (d : Depot) (q : ShareId) : Calm d (d.resetShare q).2 := by
  unfold Depot.resetShare
  split
  · split
    · exact .of_still (.modifyChunk d _ _)
    · exact .refl d
  · exact .refl d

theorem calm_returnShare (d : Depot) (q : ShareId) : Calm d (d.returnShare q).2 := by
  unfold Depot.returnShare
  split
  · exact .of_still ((Still.shares d _).trans (.giveBack _ _))
  · exact .refl d

/-- **Plain operations disturb no rental.** -/
theorem calm_plain (h : Owned d) {o : Op} (ho : o.isPlain = true) : Calm d (o.apply d) := by
  cases o with
  | call c => exact h.calm_call ho
  | rent k => exact absurd ho Bool.false_ne_true
  | release k r => exact absurd ho Bool.false_ne_true
  | dropRental r => exact absurd ho Bool.false_ne_true
  | shareRental r => exact absurd ho Bool.false_ne_true
  | markIdle k c => exact absurd ho Bool.false_ne_true
  | writeRental r e => exact calm_writeRental d r e
  | takeShare => exact .of_still ((Still.take d).trans (.shares _ _))
  | makeShare capacity => exact .of_still ⟨fun _ => rfl, fun _ => id, fun _ => Nat.le_refl _, rfl⟩
  | cloneShare q =>
    dsimp only [Op.apply]
    split
    · exact .of_still (.shares d _)
    · exact .refl d
  | dropShare q => exact .of_still (.shares d _)
  | resetShare q => exact calm_resetShare d q
  | returnShare q => exact calm_returnShare d q
  | offerEvent k => exact h.calm_admitEvent k
  | recordDropped k reason => exact .of_alike (refuses_recordDropped d k reason).toAlike
  | recordSampledOut k => exact .of_alike (refuses_recordSampledOut d k).toAlike
  | recordRateLimited k => exact .of_alike (refuses_recordRateLimited d k).toAlike
  | nameThread k thread name => exact .of_alike (agree_nameThread d k thread name).toAlike
  | newLink => exact .of_alike (Agree.links d _).toAlike
  | registerLink k l => exact .of_alike (agree_registerLink d k l).toAlike
  | closeLink l => exact .of_alike (agree_closeLink d l).toAlike
  | screen w e arrival =>
    dsimp only [Op.apply]
    split
    · exact .of_still (.modifyWriter fun _ => rfl)
    · exact .refl d
  | letGo w =>
    dsimp only [Op.apply]
    split
    · next k hk =>
      obtain ⟨s, hw, hs⟩ := Option.bind_eq_some_iff.mp hk
      exact h.calm_moves (.single (.letGo hw hs))
    · exact .refl d
  | holdRoom w =>
    dsimp only [Op.apply]
    split
    · next k hk =>
      obtain ⟨s, hw, hs⟩ := Option.bind_eq_some_iff.mp hk
      exact h.calm_moves (moves_holdRoom hw hs)
    · exact .refl d
  | evict k =>
    dsimp only [Op.apply]
    cases hevict : d.evictOldest? k with
    | none => exact .refl d
    | some d' => exact .evict hevict

end Owned

end Depot

end EventTrace
