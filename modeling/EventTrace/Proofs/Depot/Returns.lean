import EventTrace.Proofs.Depot.Recycling
import EventTrace.Proofs.Depot.Operations
/-!
# Depot — every chunk comes back

A session that is closed before it is frozen is left with an empty ledger for
good, and whatever its writers still hold they hand back themselves. So in a
run that freezes no open session no chunk is lost (`Recycling.call`); once
every session is frozen and every writer has left, all of them are free; and
a chunk is made only when all others are in use (`chunks_come_back`).
-/

namespace EventTrace

open Depot

/-- Whether a session is closed by the time a call freezes it. -/
def Call.isTimely (d : Depot) : Call → Bool
  | freeze k => (d.collector k).closed
  | _ => true

namespace Depot

variable {d d' e : Depot} {c x : ChunkId} {k j : CollectorId} {w v : WriterId} {s : Writer}
  {F : List CollectorId}

/-! ## Sessions that were frozen -/

/-- Sessions that are closed and have an empty ledger. -/
def Retired (F : List CollectorId) (d : Depot) : Prop :=
  ∀ k ∈ F, (d.collector k).closed = true ∧ (d.collector k).ledger = []

namespace Retired

theorem not_mem (h : Retired F d) (hopen : (d.collector k).closed = false) : k ∉ F := by
  intro hk
  rw [(h k hk).1] at hopen
  exact Bool.noConfusion hopen

theorem alike (h : Retired F d) (ha : Alike d d') : Retired F d' := by
  intro k hk
  rw [ha.closed, ha.ledger]
  exact h k hk

/-- A frozen session stays as it is: it is closed, so it rents nothing. -/
theorem move (h : Retired F d) (howned : Owned d) (hm : Move d d') : Retired F d' := by
  intro j hj
  obtain ⟨hclosed, hledger⟩ := h j hj
  rcases howned.move_cases hm with
    hquiet | ⟨k, hopen, hevict⟩ | ⟨w, s, k, -, -, -, hopen, -, rfl⟩
  · have hentries := hquiet.entries j
    rw [hledger] at hentries
    exact ⟨hquiet.closed j hclosed, List.map_eq_nil_iff.mp hentries⟩
  · refine ⟨by rw [closed_evictOldest? hevict, hclosed], ?_⟩
    exact List.sublist_nil.mp (hledger ▸ sublist_evictOldest? hevict j)
  · have hjk : j ≠ k := by
      rintro rfl
      exact h.not_mem hopen hj
    show ((d.enterChunk k).2.collector j).closed = true ∧
      ((d.enterChunk k).2.collector j).ledger = []
    rw [collector_enterChunk_of_ne hjk]
    exact ⟨hclosed, hledger⟩

end Retired

/-! ## Moves and calls -/

/-- Writers sit at their chunks, no chunk is lost, and what was frozen is
closed and empty. -/
structure Recycling (F : List CollectorId) (d : Depot) : Prop where
  posted : Posted F d
  kept : Kept none d
  retired : Retired F d

namespace Recycling

theorem ofCapacity (n : Nat) : Recycling [] (Depot.ofCapacity n) where
  posted := .ofCapacity n
  kept := .ofCapacity n
  retired _ hk := absurd hk List.not_mem_nil

theorem leave_kept (h : Kept none d) (hw : d.writer? w = some s) (hc : s.chunk = none) :
    Kept none (d.leave w) := by
  refine h.mono ⟨rfl, rfl, rfl, rfl, rfl⟩ ?_ fun x hx =>
    ⟨hx, references_modifyWriter fun _ _ hr => hr⟩
  intro v r hv hr
  by_cases hvw : v = w
  · subst hvw
    rw [leave, writer?_modifyWriter, hw, Option.map_some, Option.some.injEq] at hv
    rw [← hv]
    exact hc
  · rw [leave, writer?_modifyWriter_of_ne hvw] at hv
    exact h.unseated v r hv hr

/-- **Every move passes its chunk on.** -/
theorem move (h : Recycling F d) (hm : Move d d') : Recycling F d' := by
  refine ⟨h.posted.move hm, ?_, h.retired.move h.posted.owned hm⟩
  cases hm with
  | turn k ht =>
    cases ht with
    | keep ha => exact h.kept.alike ha.toAlike
    | close =>
      exact h.kept.mono ⟨rfl, rfl, rfl, rfl, rfl⟩ h.kept.unseated fun x hx =>
        ⟨hx, references_modifyCollector (Nat.le_refl _)⟩
    | evict _ hevict => exact h.kept.evict h.posted.owned hevict
  | hold hw hs hc _ _ =>
    exact h.kept.hold h.posted.owned.capacity_pos (h.posted.attached _ _ _ hw hs) hw hs hc
  | @letGo w s k hw hs =>
    -- an open session was not frozen, so its ledger has what its writer holds
    refine h.kept.letGo h.posted.owned hw fun c hc hopen => ?_
    exact ledgers_of_mem
      (h.posted.seated w k s.thread c ⟨s, hw, hs, rfl, hc⟩ (h.retired.not_mem hopen))
  | leave hw hc => exact leave_kept h.kept hw hc
  | @vacate w s hw hs =>
    refine h.kept.vacate hw ?_
    rcases hs with hc | hcollector
    · exact hc
    · exact h.kept.unseated w s hw hcollector

theorem moves (h : Recycling F d) (hm : Moves d d') : Recycling F d' := by
  induction hm with
  | refl => exact h
  | tail _ hm ih => exact ih.move hm

theorem agree (h : Recycling F d) (ha : Agree d d') : Recycling F d' :=
  h.moves (.of_agree ha)

theorem rescreen (h : Recycling F d) (hw : d.writer? w = some s) (e : Emission) (now : Int) :
    Recycling F (d.rescreen w (s.screen.screen e.id e.kind now).2) :=
  ⟨h.posted.rescreen hw e now, h.kept.alike (alike_rescreen _ _ _),
    h.retired.alike (alike_rescreen _ _ _)⟩

theorem refuses (h : Recycling F d) (hr : Refuses k d d') : Recycling F d' :=
  ⟨h.posted.alike_of_writers hr.toAlike hr.sameWriters, h.kept.alike hr.toAlike,
    h.retired.alike hr.toAlike⟩

theorem accept (h : Recycling F d) (hw : d.writer? w = some s) (hs : s.collector = some k)
    (hc : s.chunk = some c) (hfull : (d.chunk c).isFull = false) (event : Event) :
    Recycling F (d.accept k w c event) := by
  refine ⟨h.posted.accept hw hs hc hfull event, ?_, ?_⟩
  · have hcounted : Kept none (d.modifyCollector k Collector.countEvent) :=
      h.kept.mono ⟨rfl, rfl, rfl, rfl, rfl⟩ h.kept.unseated fun x hx =>
        ⟨hx, references_modifyCollector (Nat.le_refl _)⟩
    have hstepped : Kept none ((d.modifyCollector k Collector.countEvent).modifyWriter w
        fun s => { s with sequence := s.sequence + 1 }) :=
      hcounted.mono ⟨rfl, rfl, rfl, rfl, rfl⟩
        (unseated_modifyWriter hcounted.unseated fun _ => ⟨rfl, .inl rfl⟩) fun x hx =>
          ⟨hx, references_modifyWriter fun _ _ hr => hr⟩
    refine hstepped.modifyChunk fun ch => ?_
    unfold Chunk.push
    split <;> rfl
  · intro j hj
    obtain ⟨hclosed, hledger⟩ := h.retired j hj
    refine ⟨?_, by rw [ledger_accept, hledger]⟩
    refine (congr_modifyCollector Collector.closed ?_ j).trans hclosed
    exact fun _ => rfl

theorem writeEnds {e : Emission} {now : Reading} {r : Bool × Depot} (h : Recycling F d)
    (hends : WriteEnds d w e now r) : Recycling F r.2 := by
  cases hends with
  | closed _ hmoves => exact h.moves hmoves
  | filtered _ hw _ _ hscreen => exact hscreen ▸ h.rescreen hw e now.arrival
  | refused _ hw _ _ hscreen hbefore hrefuses hafter =>
    have hscreened := hscreen ▸ h.rescreen hw e now.arrival
    exact ((hscreened.moves hbefore).refuses hrefuses).moves hafter
  | written _ hw hs _ hscreen hbefore hw₁ hfull _ hagree =>
    have hscreened := hscreen ▸ h.rescreen hw e now.arrival
    exact ((hscreened.moves hbefore).accept hw₁ hs rfl hfull _).agree hagree

theorem newCollector (h : Recycling F d) (o : Options) : Recycling F (d.newCollector o).2 := by
  refine ⟨h.posted.newCollector o, ?_, fun k hk => ?_⟩
  · refine h.kept.mono ⟨rfl, rfl, rfl, rfl, rfl⟩ h.kept.unseated fun x hx => ⟨hx, ?_⟩
    have hledgered : (d.newCollector o).2.ledgered x = d.ledgered x := by
      simp [ledgered, Depot.newCollector]
    rw [references_eq, references_eq, hledgered]
    exact Nat.le_refl _
  · obtain ⟨hclosed, hledger⟩ := h.retired k hk
    -- a session that was frozen is not the one that comes now, which is open
    have hne : k ≠ d.collectors.size := by
      rintro rfl
      rw [collector_of_ge (Nat.le_refl _)] at hclosed
      exact Bool.noConfusion hclosed
    rw [collector_newCollector_of_ne hne]
    exact ⟨hclosed, hledger⟩

theorem newWriter (h : Recycling F d) (hk : k < d.collectors.size) (thread : Int)
    (name : Option String) : Recycling F (d.newWriter k thread name).2 := by
  have hposted := h.posted.newWriter hk thread name
  obtain ⟨d₁, hagree, heq⟩ := newWriter_eq d k thread name
  rw [heq] at hposted ⊢
  refine ⟨hposted, ?_, fun j hj => h.retired.alike hagree.toAlike j hj⟩
  have hkept := h.kept.alike hagree.toAlike
  refine hkept.mono ⟨rfl, rfl, rfl, rfl, rfl⟩ ?_ fun x hx => ⟨hx, ?_⟩
  · intro v r hv hr
    by_cases hlast : v = d₁.writers.size
    · rw [hlast, writer?_enlist, Option.some.injEq] at hv
      rw [← hv]
    · rw [writer?_enlist_of_ne hlast] at hv
      exact hkept.unseated v r hv hr
  · rw [references_eq, references_eq, writable, writable]
    simp [filling, enlist, ledgered]

/-- Freezing offers the chunks of a ledger one by one. -/
theorem freezeEntries_kept (entries : List LedgerEntry) (frozen : Frozen) (h : Kept none d)
    (hledger : (d.collector k).ledger = entries)
    (hsize : ∀ entry ∈ entries, entry.chunk < d.chunks.size) :
    Kept none (Depot.freezeEntries k entries frozen d).2 := by
  induction entries generalizing d frozen with
  | nil => exact h
  | cons entry rest ih =>
    have hunloaded : Kept (some entry.chunk)
        (d.modifyCollector k fun s => { s with ledger := rest }) := by
      refine h.unload fun x hx => ?_
      simp [hledger, Ne.symm hx]
    have hoffered : Kept none (d.unload k entry rest) :=
      hunloaded.giveBack (hsize entry List.mem_cons_self)
    have hunload := unloaded_unload hledger
    have hrest : ((d.unload k entry rest).collector k).ledger = rest := by rw [hunload.collector]
    have hchunks : (d.unload k entry rest).chunks.size = d.chunks.size := by
      rw [← hoffered.allocated, ← h.allocated]
      exact giveBack_allocated _ _
    have hlater : ∀ later ∈ rest, later.chunk < (d.unload k entry rest).chunks.size := by
      intro later hmem
      rw [hchunks]
      exact hsize later (List.mem_cons_of_mem _ hmem)
    unfold Depot.freezeEntries
    dsimp only
    cases hback : (d.modifyCollector k fun s => { s with ledger := rest }).giveBack entry.chunk with
    | mk taken d₁ =>
      obtain rfl : d.unload k entry rest = d₁ := by rw [unload, hback]
      cases taken
      all_goals exact ih _ hoffered hrest hlater

theorem freeze (h : Recycling F d) (hclosed : (d.collector k).closed = true) :
    Recycling (k :: F) (d.freeze k).2 := by
  obtain ⟨-, hfrozen⟩ := freeze_spec d k
  refine ⟨h.posted.freeze k, ?_, fun j hj => ?_⟩
  · refine (freezeEntries_kept _ {} h.kept rfl fun entry hmem => ?_).note _
    exact h.posted.owned.lt_size_of_ledgers (ledgers_of_mem hmem)
  · by_cases hjk : j = k
    · rw [hjk, hfrozen.collector]
      exact ⟨hclosed, rfl⟩
    · rw [hfrozen.others j hjk]
      exact h.retired j ((List.mem_cons.mp hj).resolve_left hjk)

/-- **No call loses a chunk**, if it freezes no open session. -/
theorem call (h : Recycling F d) {c : Call} (htimely : c.isTimely d = true) :
    Recycling (c.freezes ++ F) (c.apply d) := by
  cases c with
  | newCollector o => exact h.newCollector o
  | newWriter k thread name =>
    dsimp only [Call.apply]
    split
    · next hk => exact h.newWriter hk thread name
    · exact h
  | write w e now => exact h.writeEnds (h.posted.owned.writeEnds w e now)
  | detach w => exact h.moves (moves_detach d w)
  | dropWriter w => exact h.moves (moves_dropWriter d w)
  | close k => exact h.move (.turn k (.close d))
  | closeWriters k => exact h.agree (agree_closeWriters d k)
  | freeze k => exact h.freeze htimely

end Recycling

/-! ## Chunks that are made -/

theorem Turn.allocated (h : Turn k d d') : d'.allocated = d.allocated := by
  cases h with
  | keep hagree => exact hagree.allocated
  | close => rfl
  | evict _ hevict =>
    obtain ⟨c, pre, post, -, -, rfl⟩ := evictOldest?_eq_some.mp hevict
    exact giveBack_allocated _ c

theorem Turns.allocated (h : Turns k d d') : d'.allocated = d.allocated := by
  induction h with
  | refl => rfl
  | tail _ hturn ih => rw [hturn.allocated, ih]

theorem allocated_letGo (d : Depot) (w : WriterId) (k : CollectorId) :
    (d.letGo w k).allocated = d.allocated := by
  unfold letGo releaseChunk
  split
  · rfl
  · split
    · exact giveBack_allocated _ _
    · rfl

theorem allocated_detach (d : Depot) (w : WriterId) : (d.detach w).allocated = d.allocated := by
  unfold detach
  split
  · rfl
  · split
    · rfl
    · exact allocated_letGo _ w _

theorem allocated_dropWriter (d : Depot) (w : WriterId) :
    (d.dropWriter w).allocated = d.allocated := by
  unfold dropWriter
  split
  · rfl
  · dsimp only
    split
    · rfl
    · exact allocated_letGo d w _

theorem allocated_freeze (d : Depot) (k : CollectorId) :
    (d.freeze k).2.allocated = d.allocated := by
  have hentries : ∀ (entries : List LedgerEntry) (frozen : Frozen) (d : Depot),
      (freezeEntries k entries frozen d).2.allocated = d.allocated := by
    intro entries
    induction entries with
    | nil => exact fun _ _ => rfl
    | cons entry rest ih =>
      intro frozen d
      have hback := giveBack_allocated (d.modifyCollector k fun s => { s with ledger := rest })
        entry.chunk
      unfold freezeEntries
      dsimp only
      split
      all_goals
        next heq =>
          rw [heq] at hback
          rw [ih]
          exact hback
  exact hentries _ _ d

theorem allocated_admitEvent (d : Depot) (k : CollectorId) :
    (d.admitEvent k).2.allocated = d.allocated := by
  cases hclosed : (d.collector k).closed with
  | true => rw [admitEvent_of_closed hclosed]
  | false =>
    cases hadmit : d.admitEvent k with
    | mk ok d' =>
      cases ok with
      | true =>
        obtain ⟨d₁, hturns, -, -, hagree⟩ := admitEvent_true hadmit
        exact hagree.allocated.trans hturns.allocated
      | false =>
        obtain ⟨d₁, reason, hbefore, hafter⟩ := admitEvent_false hadmit hclosed
        rw [hafter.allocated, (refuses_recordDropped d₁ k reason).allocated, hbefore.allocated]

theorem allocated_append (d : Depot) (w : WriterId) (e : Emission) (stamp : Int) :
    (d.append w e stamp).2.allocated = d.allocated := by
  unfold append
  split
  · rfl
  · split <;> rfl

/-- **A chunk is made only when none is free.** -/
theorem allocated_renewChunk (d : Depot) (w : WriterId) (k : CollectorId) :
    (d.renewChunk w k).2.allocated = d.allocated ∨ (d.renewChunk w k).2.free = [] := by
  unfold renewChunk
  cases hrent : (d.letGo w k).rentChunk k with
  | mk rented d' =>
    cases rented with
    | none => exact .inl ((rentChunk_none hrent).allocated.trans (allocated_letGo d w k))
    | some c =>
      obtain ⟨d₁, hturns, -, -, rfl, hagree⟩ := rentChunk_some hrent
      show d'.allocated = d.allocated ∨ d'.free = []
      rw [hagree.allocated, hagree.free]
      have hbefore : d₁.allocated = d.allocated := hturns.allocated.trans (allocated_letGo d w k)
      show d₁.take.2.allocated = d.allocated ∨ d₁.take.2.free = []
      unfold take
      split
      · exact .inl hbefore
      · next hfree => exact .inr hfree

theorem allocated_holdRoom (d : Depot) (w : WriterId) (k : CollectorId) :
    (d.holdRoom w k).2.allocated = d.allocated ∨ (d.holdRoom w k).2.free = [] := by
  unfold holdRoom
  split
  · split
    · exact allocated_renewChunk d w k
    · exact .inl rfl
  · exact allocated_renewChunk d w k

/-- Once a writer has seen to room, nothing more is made for its event. -/
theorem allocated_place (d : Depot) (w : WriterId) (k : CollectorId) (e : Emission) (stamp : Int) :
    (d.place w k e stamp).2.allocated = (d.holdRoom w k).2.allocated := by
  unfold place
  split
  · next d₁ hroom => rw [hroom, (refuses_recordDropped d₁ k _).allocated]
  · next d₁ hroom =>
    rw [hroom]
    have hadmit := allocated_admitEvent d₁ k
    split
    · next d₂ heq => rwa [heq] at hadmit
    · next d₂ heq =>
      rw [heq] at hadmit
      exact (allocated_append d₂ w e stamp).trans hadmit

/-! ## In use -/

/-- Whether a chunk is in a ledger or held by a writer. -/
def isUsed (d : Depot) (c : ChunkId) : Bool := decide (0 < d.ledgered c + d.filling c)

/-- How many chunks are in a ledger or held by a writer. -/
def used (d : Depot) : Nat := (List.range d.allocated).countP d.isUsed

/-- Where none is free, all are in use. -/
theorem Kept.used_eq (h : Kept none d) (hfree : d.free = []) : d.used = d.allocated := by
  have hall : ∀ c ∈ List.range d.allocated, d.isUsed c := by
    intro c hc
    have hpos := h.referenced c (h.allocated ▸ List.mem_range.mp hc) (by simp)
    rw [references_eq, writable, hfree, h.rentals, h.shares] at hpos
    simp only [heldIn, List.count_nil, Array.countP_empty] at hpos
    exact decide_eq_true (by omega)
  rw [used, List.countP_eq_length.mpr hall, List.length_range]

/-- **A chunk of a depot that loses none** is free, in a ledger or held by a
writer. -/
theorem Kept.somewhere (h : Kept none d) (hc : c < d.allocated) :
    c ∈ d.free ∨ (∃ k, d.Ledgers k c) ∨ ∃ w s, d.writer? w = some s ∧ s.chunk = some c := by
  have hpos := h.referenced c (h.allocated ▸ hc) (by simp)
  rw [references_eq, writable, h.rentals, h.shares] at hpos
  simp only [heldIn, Array.countP_empty] at hpos
  by_cases hledgered : 0 < d.ledgered c
  · exact .inr (.inl (exists_ledgers hledgered))
  by_cases hfilling : 0 < d.filling c
  · exact .inr (.inr (exists_writer?_of_filling hfilling))
  · exact .inl (List.count_pos_iff.mp (by omega))

/-- **Once all sessions are frozen and all writers have left, every chunk is
free**, once. -/
theorem Recycling.perm_free (h : Recycling F d) (hfrozen : ∀ k < d.collectors.size, k ∈ F)
    (hleft : ∀ w s, d.writer? w = some s → s.collector = none) :
    d.free.Perm (List.range d.allocated) := by
  have howned := h.posted.owned
  refine (List.perm_ext_iff_of_nodup howned.nodup_free List.nodup_range).mpr fun c => ?_
  rw [List.mem_range]
  constructor
  · intro hc
    rw [h.kept.allocated]
    exact howned.lt_size (by rw [howned.alone c hc]; omega)
  · intro hc
    rcases h.kept.somewhere hc with hfree | ⟨k, hin⟩ | ⟨w, s, hw, hs⟩
    · exact hfree
    · obtain ⟨entry, hmem, -⟩ := hin
      rw [(h.retired k (hfrozen k (Depot.lt_size_of_ledgers ⟨entry, hmem, rfl⟩))).2] at hmem
      exact absurd hmem List.not_mem_nil
    · rw [h.kept.unseated w s hw (hleft w s hw)] at hs
      exact absurd hs (by simp)

/-- Whether a write gets as far as to ask for room. -/
def asksRoom (d : Depot) (w : WriterId) (e : Emission) (arrival : Int) : Bool :=
  (d.reaches w).isSome &&
    (d.writer? w).any fun s => (s.screen.screen e.id e.kind arrival).1 == .passed

end Depot

/-! ## Runs -/

/-- The depot in the midst of a call: in a write that asks for room, once its
writer has seen to it; else as it was. -/
def Call.midway (d : Depot) : Call → Depot
  | write w e now =>
    if d.asksRoom w e now.arrival then (Op.holdRoom w).apply ((Op.screen w e now.arrival).apply d)
    else d
  | _ => d

namespace Depot

variable {d : Depot} {w : WriterId} {s : Writer} {k : CollectorId} {F : List CollectorId}

theorem midway_of_not_asksRoom {e : Emission} {now : Reading}
    (hasks : ¬ d.asksRoom w e now.arrival = true) : (Call.write w e now).midway d = d :=
  if_neg hasks

/-- What a write comes to in its midst. -/
theorem midway_write {e : Emission} {now : Reading} (hw : d.writer? w = some s)
    (hs : s.collector = some k) (hasks : d.asksRoom w e now.arrival = true) :
    (Call.write w e now).midway d =
      ((d.rescreen w (s.screen.screen e.id e.kind now.arrival).2).holdRoom w k).2 := by
  have hscreen : (Op.screen w e now.arrival).apply d =
      d.rescreen w (s.screen.screen e.id e.kind now.arrival).2 := by
    dsimp only [Op.apply]
    rw [hw]
  have hsession : (d.rescreen w (s.screen.screen e.id e.kind now.arrival).2).session? w =
      some k := by
    rw [session?, rescreen, writer?_modifyWriter, hw]
    exact hs
  refine (if_pos hasks).trans ?_
  rw [hscreen]
  dsimp only [Op.apply]
  rw [hsession]

/-- In the midst of a call no chunk is lost either. -/
theorem Recycling.midway (h : Recycling F d) (c : Call) : Recycling F (c.midway d) := by
  cases c with
  | write w e now =>
    by_cases hasks : d.asksRoom w e now.arrival = true
    · obtain ⟨hreaches, -⟩ := Bool.and_eq_true_iff.mp hasks
      obtain ⟨k, hk⟩ := Option.isSome_iff_exists.mp hreaches
      obtain ⟨s, hw, hs, -⟩ := reaches_eq_some.mp hk
      rw [midway_write hw hs hasks]
      have hw' : (d.rescreen w (s.screen.screen e.id e.kind now.arrival).2).writer? w =
          some { s with screen := (s.screen.screen e.id e.kind now.arrival).2 } := by
        rw [Depot.rescreen, writer?_modifyWriter, hw]
        rfl
      exact (h.rescreen hw e now.arrival).moves (moves_holdRoom hw' hs)
    · rwa [midway_of_not_asksRoom hasks]
  | _ => exact h

/-- After the midst of a write no chunk is made. -/
theorem allocated_write (d : Depot) (w : WriterId) (e : Emission) (now : Reading) :
    (d.write w e now).2.allocated = ((Call.write w e now).midway d).allocated := by
  by_cases hasks : d.asksRoom w e now.arrival = true
  · obtain ⟨hreaches, hpassed⟩ := Bool.and_eq_true_iff.mp hasks
    obtain ⟨k, hk⟩ := Option.isSome_iff_exists.mp hreaches
    obtain ⟨s, hw, hs, hclosed⟩ := reaches_eq_some.mp hk
    have hpassed : (s.screen.screen e.id e.kind now.arrival).1 = .passed := by
      simpa [hw] using hpassed
    rw [midway_write hw hs hasks, ← allocated_place]
    unfold write
    simp only [hw, hs, hclosed, hpassed, Bool.false_eq_true, if_false]
    rfl
  · rw [midway_of_not_asksRoom hasks]
    unfold write
    split
    · rfl
    · next s hw =>
      split
      · exact allocated_detach d w
      · next k hs =>
        split
        · exact allocated_detach d w
        · next hclosed =>
          have hreach : d.reaches w = some k :=
            reaches_eq_some.mpr ⟨s, hw, hs, by simpa using hclosed⟩
          dsimp only
          split
          · rfl
          · exact (refuses_recordSampledOut _ k).allocated
          · exact (refuses_recordRateLimited _ k).allocated
          · next hpassed => exact absurd (by simp [asksRoom, hreach, hw, hpassed]) hasks

/-- **A call makes a chunk only if none is free in its midst**, and none after
that. -/
theorem allocated_call (d : Depot) (c : Call) :
    (c.apply d).allocated = (c.midway d).allocated ∧
      ((c.midway d).allocated = d.allocated ∨ (c.midway d).free = []) := by
  cases c with
  | write w e now =>
    refine ⟨allocated_write d w e now, ?_⟩
    by_cases hasks : d.asksRoom w e now.arrival = true
    · obtain ⟨k, hk⟩ := Option.isSome_iff_exists.mp (Bool.and_eq_true_iff.mp hasks).1
      obtain ⟨s, hw, hs, -⟩ := reaches_eq_some.mp hk
      rw [midway_write hw hs hasks]
      exact allocated_holdRoom _ w k
    · exact .inl (by rw [midway_of_not_asksRoom hasks])
  | newCollector o => exact ⟨rfl, .inl rfl⟩
  | newWriter k thread name =>
    refine ⟨?_, .inl rfl⟩
    dsimp only [Call.apply]
    split
    · obtain ⟨d₁, hagree, heq⟩ := newWriter_eq d k thread name
      rw [heq]
      exact hagree.allocated
    · rfl
  | detach w => exact ⟨allocated_detach d w, .inl rfl⟩
  | dropWriter w => exact ⟨allocated_dropWriter d w, .inl rfl⟩
  | close k => exact ⟨rfl, .inl rfl⟩
  | closeWriters k => exact ⟨(agree_closeWriters d k).allocated, .inl rfl⟩
  | freeze k => exact ⟨allocated_freeze d k, .inl rfl⟩

/-- The depot after some calls. -/
def after (d : Depot) (calls : List Call) : Depot := calls.foldl Call.apply d

/-- The depot before, in the midst of and after each of some calls. -/
def moments : Depot → List Call → List Depot
  | d, [] => [d]
  | d, c :: calls => d :: c.midway d :: moments (c.apply d) calls

/-- Whether each session is closed by the time a call freezes it. -/
def timely : Depot → List Call → Bool
  | _, [] => true
  | d, c :: calls => c.isTimely d && timely (c.apply d) calls

namespace Recycling

/-- **No chunk is lost at any moment of a run.** -/
theorem moments {calls : List Call} (h : Recycling F d) (htimely : d.timely calls = true) :
    ∀ m ∈ d.moments calls, ∃ F, Recycling F m := by
  induction calls generalizing d F with
  | nil =>
    intro m hm
    rw [List.mem_singleton.mp hm]
    exact ⟨F, h⟩
  | cons c calls ih =>
    obtain ⟨hfirst, hrest⟩ := Bool.and_eq_true_iff.mp htimely
    intro m hm
    rcases List.mem_cons.mp hm with rfl | hm
    · exact ⟨F, h⟩
    · rcases List.mem_cons.mp hm with rfl | hm
      · exact ⟨F, h.midway c⟩
      · exact ih (h.call hfirst) hrest m hm

/-- After a run the sessions that its calls froze are closed and empty. -/
theorem after {calls : List Call} (h : Recycling F d) (htimely : d.timely calls = true) :
    ∃ F', Recycling F' (d.after calls) ∧ ∀ k, .freeze k ∈ calls ∨ k ∈ F → k ∈ F' := by
  induction calls generalizing d F with
  | nil => exact ⟨F, h, fun k hk => hk.resolve_left List.not_mem_nil⟩
  | cons c calls ih =>
    obtain ⟨hfirst, hrest⟩ := Bool.and_eq_true_iff.mp htimely
    obtain ⟨F', hF', hfrozen⟩ := ih (h.call hfirst) hrest
    refine ⟨F', hF', fun k hk => hfrozen k ?_⟩
    rcases hk with hk | hk
    · rcases List.mem_cons.mp hk with rfl | hk
      · exact .inr List.mem_cons_self
      · exact .inl hk
    · exact .inr (List.mem_append_right _ hk)

/-- **If a run makes a chunk, then all are in use at some moment of it**, as
many as are ever made. -/
theorem exists_used {calls : List Call} (h : Recycling F d) (htimely : d.timely calls = true) :
    (d.after calls).allocated = d.allocated ∨
      ∃ m ∈ d.moments calls, (d.after calls).allocated ≤ m.used := by
  induction calls generalizing d F with
  | nil => exact .inl rfl
  | cons c calls ih =>
    obtain ⟨hfirst, hrest⟩ := Bool.and_eq_true_iff.mp htimely
    obtain ⟨hsame, hmade⟩ := allocated_call d c
    have hmidway : c.midway d ∈ d.moments (c :: calls) :=
      List.mem_cons_of_mem _ List.mem_cons_self
    rcases ih (h.call hfirst) hrest with hlater | ⟨m, hm, hle⟩
    · -- none is made later, so the last one, if any, is made in this call
      have hlater : (d.after (c :: calls)).allocated = (c.midway d).allocated :=
        Eq.trans hlater hsame
      rcases hmade with hnone | hfree
      · exact .inl (hlater.trans hnone)
      · refine .inr ⟨c.midway d, hmidway, ?_⟩
        rw [hlater, (h.midway c).kept.used_eq hfree]
    · exact .inr ⟨m, List.mem_cons_of_mem _ (List.mem_cons_of_mem _ hm), hle⟩

end Recycling

theorem after_mem_moments (d : Depot) (calls : List Call) : d.after calls ∈ d.moments calls := by
  induction calls generalizing d with
  | nil => exact List.mem_singleton.mpr rfl
  | cons c calls ih => exact List.mem_cons_of_mem _ (List.mem_cons_of_mem _ (ih (c.apply d)))

end Depot

/-- **Every chunk comes back.** In a run that freezes sessions only once they
are closed, at every moment each chunk there ever was is free, in a ledger or
held by a writer. Once every session is frozen and every writer has left or
was dropped, in whatever order, each chunk is free, and once. And no more
chunks are made than are in ledgers or held at some one moment. -/
theorem chunks_come_back (capacity : Nat) (calls : List Call)
    (htimely : (Depot.ofCapacity capacity).timely calls = true) :
    let d := (Depot.ofCapacity capacity).after calls
    let moments := (Depot.ofCapacity capacity).moments calls
    (∀ m ∈ moments, m.allocated = m.chunks.size ∧ ∀ c < m.allocated,
      c ∈ m.free ∨ (∃ k, m.Ledgers k c) ∨ ∃ w s, m.writer? w = some s ∧ s.chunk = some c) ∧
    ((∀ k < d.collectors.size, .freeze k ∈ calls) →
      (∀ w s, d.writer? w = some s → s.collector = none) →
      d.free.Perm (List.range d.allocated)) ∧
    ∃ m ∈ moments, d.allocated ≤ m.used := by
  intro d moments
  have hstart := Recycling.ofCapacity capacity
  refine ⟨fun m hm => ?_, fun hfrozen hleft => ?_, ?_⟩
  · obtain ⟨F, hF⟩ := hstart.moments htimely m hm
    exact ⟨hF.kept.allocated, fun c => hF.kept.somewhere⟩
  · obtain ⟨F, hF, hmem⟩ := hstart.after htimely
    exact hF.perm_free (fun k hk => hmem k (.inl (hfrozen k hk))) hleft
  · rcases hstart.exists_used htimely with hnone | hused
    · refine ⟨d, Depot.after_mem_moments _ calls, ?_⟩
      rw [hnone]
      exact Nat.zero_le _
    · exact hused

/-- Two sessions over one pool: a writer that gives up its first chunk at the
event cap is detached only after its session was frozen, and the other one is
dropped only after a second session has come. -/
def Call.twoSessions : List Call :=
  let e : Emission := { id := 7, kind := .instant }
  [.newCollector { maxTotalEvents := 1, policy := .dropOldest }, .newWriter 0 1 none,
    .newWriter 0 2 none, .write 0 e ⟨0, 0⟩, .write 0 e ⟨1, 1⟩, .write 1 e ⟨2, 2⟩, .close 0,
    .closeWriters 0, .freeze 0, .detach 0, .newCollector {}, .newWriter 1 2 none, .dropWriter 1,
    .write 2 e ⟨3, 3⟩, .close 1, .freeze 1, .dropWriter 2]

/-- Both chunks come back. -/
theorem chunks_come_back_twoSessions :
    ((Depot.ofCapacity 1).after Call.twoSessions).allocated = 2 ∧
    ((Depot.ofCapacity 1).after Call.twoSessions).free.Perm (List.range 2) := by
  have hmade : ((Depot.ofCapacity 1).after Call.twoSessions).allocated = 2 := by decide +kernel
  have hsize : ((Depot.ofCapacity 1).after Call.twoSessions).collectors.size = 2 := by
    decide +kernel
  have hfrozen : ∀ k < ((Depot.ofCapacity 1).after Call.twoSessions).collectors.size,
      .freeze k ∈ Call.twoSessions := by
    intro k hk
    rw [hsize] at hk
    have hk : k = 0 ∨ k = 1 := by omega
    rcases hk with rfl | rfl <;> simp [Call.twoSessions]
  have hwriters : ((Depot.ofCapacity 1).after Call.twoSessions).writers.toList.map
      (Option.map Writer.collector) = [some none, none, none] := by decide +kernel
  have hleft : ∀ w s, ((Depot.ofCapacity 1).after Call.twoSessions).writer? w = some s →
      s.collector = none := by
    intro w s hw
    have hmem := List.mem_of_getElem? (i := w) (l := (((Depot.ofCapacity 1).after
      Call.twoSessions).writers.toList.map (Option.map Writer.collector)))
      (a := some s.collector) (by simp [getElem?_of_writer? hw])
    simpa [hwriters] using hmem
  obtain ⟨-, hall, -⟩ := chunks_come_back 1 Call.twoSessions (by decide +kernel)
  have hfree := hall hfrozen hleft
  rw [hmade] at hfree
  exact ⟨hmade, hfree⟩

end EventTrace
