import EventTrace.Proofs.Depot.Covering
import EventTrace.Proofs.Depot.Recycling
import EventTrace.Proofs.Depot.Slots
/-!
# Depot — runs that only writers feed

Between writers there may be anything that brings no event into a session:
chunks rented and given back by hand, shares of any chunk, tallies, names,
close flags, stages of a write. As long as no event is written or admitted by
hand, the word that counts a session's events covers what its ledger holds
and both caps are kept. As long as no chunk of the session is marked idle
while a writer fills it, the word counts just what the ledger holds, and at
every chunk with events that is not idle its writer sits (`Stocked`,
`stocked_runOps`). Where writers sit is kept even through runs that are fed by
hand (`exists_stocked_runOps`).
-/

namespace EventTrace

open Depot

/-- Whether an operation brings in an event by hand: writes one to a rented
chunk, or has one admitted that no writer writes. -/
def Op.feeds : Op → Bool
  | writeRental .. | offerEvent _ => true
  | _ => false

/-- A run in which events come in through writers only. -/
def ThroughWriters (ops : List Op) : Prop := ∀ o ∈ ops, o.feeds = false

/-- A run in which no chunk of a session's ledger is marked idle by hand while a
writer fills it. The key of a rental outlives it, so it could be. -/
def Tended (capacity : Nat) (ops : List Op) (k : CollectorId) : Prop :=
  ∀ before c after, ops = before ++ .markIdle k c :: after →
    (runOps capacity before).Ledgers k c → (runOps capacity before).filling c = 0

/-- The collectors that an operation freezes. -/
def Op.freezes : Op → List CollectorId
  | call c => c.freezes
  | _ => []

/-- The collectors that an operation freezes, or of which it marks a chunk
idle that a writer fills. -/
def Op.spoils (d : Depot) : Op → List CollectorId
  | call c => c.freezes
  | markIdle k c => if d.Ledgers k c → d.filling c = 0 then [] else [k]
  | _ => []

namespace Depot

variable {d d' : Depot} {c x : ChunkId} {k j : CollectorId} {w v : WriterId} {s : Writer}
  {t : Int} {F F' G G' : List CollectorId} {n n' : Nat}

/-! ## What is done by hand -/

/-- Neither a collector nor a writer is touched, nor what a ledger holds. -/
structure Aside (d d' : Depot) : Prop where
  collectors : d'.collectors = d.collectors
  writers : d'.writers = d.writers
  events : ∀ k c, d.Ledgers k c → (d'.chunk c).events = (d.chunk c).events

namespace Aside

theorem collector (h : Aside d d') (k : CollectorId) : d'.collector k = d.collector k := by
  rw [Depot.collector, h.collectors, ← Depot.collector]

theorem writer? (h : Aside d d') (w : WriterId) : d'.writer? w = d.writer? w := by
  rw [Depot.writer?, h.writers, ← Depot.writer?]

theorem seat (h : Aside d d') : Seat d' w k t c ↔ Seat d w k t c := by
  unfold Seat
  rw [h.writer?]

theorem ledgers (h : Aside d d') : d'.Ledgers k c ↔ d.Ledgers k c := by
  rw [Ledgers, Ledgers, h.collector]

theorem contents (h : Aside d d') (k : CollectorId) : d'.contents k = d.contents k :=
  contents_congr (by rw [h.collector]) (h.events k)

theorem staff (h : Aside d d') : SameStaff d d' :=
  .of_writers h.writers fun k => by rw [h.collector]

/-- A return touches no chunk of a ledger. -/
theorem giveBack (d : Depot) (c : ChunkId) : Aside d (d.giveBack c).2 where
  collectors := giveBack_collectors d c
  writers := giveBack_writers d c
  events _ _ hx := by rw [chunk_giveBack_of_ledgers hx]

theorem take (d : Depot) : Aside d d.take.2 where
  collectors := take_collectors d
  writers := take_writers d
  events _ x _ := take_events d x

theorem trans {e : Depot} (h : Aside d d') (h' : Aside d' e) : Aside d e where
  collectors := h'.collectors.trans h.collectors
  writers := h'.writers.trans h.writers
  events k x hx := (h'.events k x (h.ledgers.mpr hx)).trans (h.events k x hx)

/-- Rentals and shares are no collectors and no writers. -/
theorem holdings (d : Depot) (rentals shares : Array Holding) :
    Aside d { d with rentals, shares } := ⟨rfl, rfl, fun _ _ _ => rfl⟩

/-- A chunk made for a share is empty, as is one that is not there. -/
theorem makeShare (d : Depot) (capacity : Nat) : Aside d (d.makeShare capacity).2 where
  collectors := rfl
  writers := rfl
  events k x _ := by
    simp only [Depot.makeShare, addShare, chunk, Array.getElem?_push]
    split
    · next hx => simp [hx, default, Chunk.ofCapacity]
    · rfl

/-- A chunk that only a share refers to is in no ledger. -/
theorem resetShare (d : Depot) (q : ShareId) : Aside d (d.resetShare q).2 := by
  unfold Depot.resetShare
  split
  · next c hq =>
    split
    · next hone =>
      refine ⟨rfl, rfl, fun k x hx => ?_⟩
      have hne : x ≠ c := by
        rintro rfl
        have hshared := heldIn_of_share? hq
        have hledgered := ledgered_pos hx
        rw [references_eq] at hone
        omega
      rw [chunk_modifyChunk_of_ne hne]
    · exact .holdings d _ _
  · exact .holdings d _ _

end Aside

namespace Posted

/-- What is said of fewer sessions holds the more. -/
theorem mono (h : Posted F d) (hF : ∀ k ∈ F, k ∈ F') : Posted F' d :=
  { h with
    seated := fun w k t c hseat hk => h.seated w k t c hseat fun hin => hk (hF k hin)
    counted := fun k hk => h.counted k fun hin => hk (hF k hin) }

theorem aside (h : Posted F d) (ha : Aside d d') (howned : Owned d') : Posted F d' where
  owned := howned
  attached w s k hw hk := by
    rw [ha.collectors]
    exact h.attached w s k (ha.writer? w ▸ hw) hk
  honest := honest_of_sameStaff h.honest ha.staff
  seated w k t c hseat hk := by
    rw [ha.collector]
    exact h.seated w k t c (ha.seat.mp hseat) hk
  own w k t c j hseat hin := h.own w k t c j (ha.seat.mp hseat) (ha.ledgers.mp hin)
  counted k hk := by
    rw [ha.collector, ha.contents]
    exact h.counted k hk

theorem seat_enterChunk : Seat (d.enterChunk j).2 w k t c ↔ Seat d w k t c := by
  unfold Seat
  rw [writer?, enterChunk_writers, ← writer?]

/-- A chunk entered by hand is where no writer sits. -/
theorem enterChunk (h : Posted F d) (j : CollectorId) : Posted F (d.enterChunk j).2 where
  owned := (h.owned.enterChunk j).1
  attached w s k hw hk := by
    rw [writer?, enterChunk_writers, ← writer?] at hw
    rw [size_enterChunk]
    exact h.attached w s k hw hk
  honest := honest_of_sameStaff h.honest <| .of_writers (enterChunk_writers d j) fun k => by
    rw [collector_enterChunk]
  seated w k t c hseat hk := mem_enterChunk_of_mem (h.seated w k t c (seat_enterChunk.mp hseat) hk)
  own w k t c i hseat hin := by
    obtain ⟨entry, hmem, rfl⟩ := hin
    rcases mem_ledger_enterChunk hmem with hmem | ⟨-, rfl⟩
    · exact h.own w k t _ i (seat_enterChunk.mp hseat) (ledgers_of_mem hmem)
    · exact absurd rfl (ne_of_seat (j := j) h.owned (seat_enterChunk.mp hseat))
  counted k hk := (h.owned.sheds_enterChunk j k).counted (h.counted k hk)

/-- Marking a chunk idle by hand keeps all others in their places, and spoils
the session if the chunk is its own and a writer fills it. -/
theorem markIdle (h : Posted F d) (hc : (d.Ledgers j c → d.filling c = 0) ∨ j ∈ F) :
    Posted F (d.markIdle j c) where
  owned := h.owned.markIdle j c
  attached w s k hw hk := by
    have hsize : (d.markIdle j c).collectors.size = d.collectors.size := Array.size_modify
    rw [hsize]
    exact h.attached w s k hw hk
  honest := honest_of_sameStaff h.honest <| .of_writers rfl fun k => by rw [collector_markIdle]
  seated w k t x hseat hk := by
    have hmem := h.seated w k t x hseat hk
    by_cases hkj : k = j
    · subst hkj
      rcases hc with hc | hj
      · refine mem_markIdle_of_mem hmem fun heq => ?_
        obtain rfl : x = c := heq
        have hfilling : 1 ≤ d.filling x := hseat.filling_pos
        rw [hc (ledgers_of_mem hmem)] at hfilling
        exact absurd hfilling (by omega)
      · exact absurd hj hk
    · rwa [collector_markIdle_of_ne hkj]
  own w k t x i hseat hin := h.own w k t x i hseat (ledgers_markIdle.mp hin)
  counted k hk := by
    have hsame := same_markIdle d j c k
    rw [hsame.eventCount, hsame.contents]
    exact h.counted k hk

/-- An eviction by hand takes no one's seat, even of a closed session. -/
theorem evict (h : Posted F d) (hevict : d.evictOldest? j = some d') : Posted F d' where
  owned := h.owned.evict hevict
  attached w s k hw hk := by
    rw [writer?, writers_evictOldest? hevict] at hw
    rw [size_evictOldest? hevict]
    exact h.attached w s k hw hk
  honest := honest_of_sameStaff h.honest <|
    .of_writers (writers_evictOldest? hevict) (options_evictOldest? hevict)
  seated w k t x hseat hk :=
    mem_evictOldest?_of_active hevict (h.seated w k t x ((seat_evict hevict).mp hseat) hk)
  own w k t x i hseat hin :=
    h.own w k t x i ((seat_evict hevict).mp hseat) (ledgers_of_evictOldest? hevict hin)
  counted k hk := (Sheds.of_evict hevict k).counted (h.counted k hk)

end Posted

/-! ## Stock -/

/-- Writers at their chunks, the chunks counted and the events covered, both
caps kept, and at every active entry with events of an open session its
writer: the former in every session that was not frozen, the latter in every
session that was not spoilt either. No more than so many events were ever
counted. -/
structure Stocked (frozen spoilt : List CollectorId) (n : Nat) (d : Depot) : Prop
    extends Posted spoilt d where
  unseated : Unseated d
  slotted : ∀ k ∉ frozen, (d.collector k).Slotted
  covered : ∀ k ∉ frozen, ∃ m ≤ n, Covers d k m
  manned : ∀ k c, k ∉ spoilt → (d.collector k).closed = false →
    ⟨c, true⟩ ∈ (d.collector k).ledger → (d.chunk c).events ≠ #[] → ∃ w t, Seat d w k t c

namespace Stocked

theorem mono (h : Stocked F G n d) (hF : ∀ k ∈ F, k ∈ F') (hG : ∀ k ∈ G, k ∈ G') (hn : n ≤ n') :
    Stocked F' G' n' d where
  toPosted := h.toPosted.mono hG
  unseated := h.unseated
  slotted k hk := h.slotted k fun hin => hk (hF k hin)
  covered k hk := by
    obtain ⟨m, hm, hcovers⟩ := h.covered k fun hin => hk (hF k hin)
    exact ⟨m, Nat.le_trans hm hn, hcovers⟩
  manned k c hk := h.manned k c fun hin => hk (hG k hin)

theorem ofCapacity (capacity : Nat) : Stocked F G n (Depot.ofCapacity capacity) where
  toPosted := .ofCapacity capacity
  unseated w s hw := absurd hw (by simp [writer?, Depot.ofCapacity])
  slotted k _ := by
    rw [collector_of_ge (Nat.zero_le k)]
    exact .new {}
  covered k _ := ⟨0, Nat.zero_le n, .of_ge (Nat.zero_le k)⟩
  manned k c _ _ hmem := by
    rw [collector_of_ge (Nat.zero_le k)] at hmem
    exact absurd hmem List.not_mem_nil

/-- What only takes off what a session counts leaves it covered. -/
theorem covered_sheds (h : Stocked F G n d) (hk : k ∉ F) (hsheds : Sheds k d d') :
    ∃ m ≤ n, Covers d' k m := by
  obtain ⟨m, hm, hcovers⟩ := h.covered k hk
  obtain ⟨m', hm', hcovers'⟩ := hcovers.sheds hsheds
  exact ⟨m', Nat.le_trans hm' hm, hcovers'⟩

/-- A session that is the same, and holds the same, is as covered. -/
theorem covered_same (h : Stocked F G n d) (hk : k ∉ F)
    (hcollector : d'.collector k = d.collector k) (hcontents : d'.contents k = d.contents k) :
    ∃ m ≤ n, Covers d' k m := by
  obtain ⟨m, hm, hcovers⟩ := h.covered k hk
  exact ⟨m, hm, hcovers.of_same (by rw [hcollector]) hcontents (by rw [hcollector])⟩

/-! ### Moves -/

theorem unseated_move (h : Unseated d) (hm : Move d d') : Unseated d' := by
  cases hm with
  | turn k ht =>
    have hwriters : d'.writers = d.writers := Turns.writers (.single ht)
    intro v r hv
    rw [writer?, hwriters, ← writer?] at hv
    exact h v r hv
  | @hold w s k hw hs hc =>
    intro v r hv hr
    by_cases hvw : v = w
    · subst hvw
      rw [writer?_hold hw, Option.some.injEq] at hv
      rw [← hv] at hr
      exact absurd (hr.symm.trans hs) (by simp)
    · rw [writer?_hold_of_ne hvw] at hv
      exact h v r hv hr
  | @letGo w s k hw hs =>
    intro v r hv hr
    by_cases hvw : v = w
    · subst hvw
      rw [writer?_letGo hw, Option.some.injEq] at hv
      rw [← hv]
    · rw [writer?_letGo_of_ne hvw] at hv
      exact h v r hv hr
  | @leave w s hw hc =>
    intro v r hv hr
    by_cases hvw : v = w
    · subst hvw
      rw [leave, writer?_modifyWriter, hw, Option.map_some, Option.some.injEq] at hv
      rw [← hv]
      exact hc
    · rw [leave, writer?_modifyWriter_of_ne hvw] at hv
      exact h v r hv hr
  | @vacate w s hw hs =>
    intro v r hv hr
    by_cases hvw : v = w
    · subst hvw
      rw [writer?_vacate] at hv
      exact absurd hv (by simp)
    · rw [writer?_vacate_of_ne hvw] at hv
      exact h v r hv hr

/-- A move keeps whoever sits at a chunk with events. -/
theorem manned_move (h : Stocked F G n d) (hm : Move d d') (hk : k ∉ G)
    (hopen : (d'.collector k).closed = false) (hmem : ⟨c, true⟩ ∈ (d'.collector k).ledger)
    (hc : (d'.chunk c).events ≠ #[]) : ∃ w t, Seat d' w k t c := by
  have hledgered : 1 ≤ d'.ledgered c := ledgered_pos (ledgers_of_mem hmem)
  rcases h.owned.move_cases hm with
    hquiet | ⟨j, -, hevict⟩ | ⟨w, s, j, hw, hs, hnone, -, -, rfl⟩
  · rw [hquiet.events c (by omega)] at hc
    have hopen₀ : (d.collector k).closed = false := by
      cases hclosed : (d.collector k).closed with
      | false => rfl
      | true => exact absurd (hopen.symm.trans (hquiet.closed k hclosed)) (by simp)
    obtain ⟨w, t, hseat⟩ := h.manned k c hk hopen₀ (hquiet.active k c hmem) hc
    exact ⟨w, t, hquiet.sits w k t c hopen hmem hseat⟩
  · rw [events_evict hevict (by omega)] at hc
    rw [closed_evictOldest? hevict] at hopen
    have hmem₀ := (sublist_evictOldest? hevict k).subset hmem
    obtain ⟨w, t, hseat⟩ := h.manned k c hk hopen hmem₀ hc
    exact ⟨w, t, (seat_evict hevict).mpr hseat⟩
  · rw [events_hold] at hc
    rw [hold_closed] at hopen
    rcases mem_ledger_enterChunk hmem with hmem | ⟨-, hfresh⟩
    · obtain ⟨v, t, hseat⟩ := h.manned k c hk hopen hmem hc
      refine ⟨v, t, (seat_hold hw hs).mpr (.inr ⟨?_, hseat⟩)⟩
      -- the one who sits down sat nowhere
      rintro rfl
      obtain ⟨r, hr, -, -, hrc⟩ := hseat
      rw [hw, Option.some.injEq] at hr
      rw [← hr, hnone] at hrc
      exact absurd hrc (by simp)
    · obtain rfl : c = (d.enterChunk j).1 := congrArg LedgerEntry.chunk hfresh
      exact absurd (h.owned.events_fresh j) hc

/-- **Every move keeps the stock.** -/
theorem move (h : Stocked F G n d) (hm : Move d d') : Stocked F G n d' where
  toPosted := h.toPosted.move hm
  unseated := unseated_move h.unseated hm
  slotted k hk := slotted_move hm (h.slotted k hk)
  covered k hk := h.covered_sheds hk (h.owned.sheds_moves (.single hm) k)
  manned _ _ hk := h.manned_move hm hk

theorem moves (h : Stocked F G n d) (hm : Moves d d') : Stocked F G n d' := by
  induction hm with
  | refl => exact h
  | tail _ hm ih => exact ih.move hm

/-! ### Writes -/

/-- Bookkeeping keeps the stock, if it leaves the writers' tests honest. -/
theorem alike (h : Stocked F G n d) (ha : Alike d d') (hhonest : HonestScreens d') :
    Stocked F G n d' where
  toPosted := h.toPosted.alike ha hhonest
  unseated w s' hw' hs := by
    obtain ⟨s, hw, hcore⟩ := ha.writer? hw'
    have hcollector : s.collector = s'.collector := by simpa using congrArg Writer.collector hcore
    have hchunk : s.chunk = s'.chunk := by simpa using congrArg Writer.chunk hcore
    rw [← hchunk]
    exact h.unseated w s hw (hcollector.trans hs)
  slotted k hk := (h.slotted k hk).congr (ha.slots k)
  covered k hk := by
    obtain ⟨m, hm, hcovers⟩ := h.covered k hk
    exact ⟨m, hm, hcovers.alike ha⟩
  manned k c hk := by
    rw [ha.closed, ha.ledger, ha.chunk]
    intro hopen hmem hc
    obtain ⟨w, t, hseat⟩ := h.manned k c hk hopen hmem hc
    exact ⟨w, t, hseat.of_alike ha.symm⟩

theorem alike_of_writers (h : Stocked F G n d) (ha : Alike d d')
    (hwriters : d'.writers = d.writers) : Stocked F G n d' :=
  h.alike ha (Posted.honest_of_sameStaff h.honest (.of_writers hwriters ha.options))

theorem agree (h : Stocked F G n d) (ha : Agree d d') : Stocked F G n d' :=
  h.alike_of_writers ha.toAlike ha.sameWriters

theorem rescreen (h : Stocked F G n d) (hw : d.writer? w = some s) (e : Emission) (now : Int) :
    Stocked F G n (d.rescreen w (s.screen.screen e.id e.kind now).2) :=
  h.alike (alike_rescreen _ _ _) (h.toPosted.rescreen hw e now).honest

/-- An event accepted where there is room keeps the stock, with one event more
counted. -/
theorem accept (h : Stocked F G n d) (hw : d.writer? w = some s) (hs : s.collector = some j)
    (hc : s.chunk = some c) (hfull : (d.chunk c).isFull = false)
    (hroom : (d.collector j).hasEventRoom = true) (event : Event) :
    Stocked F G (n + 1) (d.accept j w c event) where
  toPosted := h.toPosted.accept hw hs hc hfull event
  unseated v r' hv hr := by
    obtain ⟨r, hv₀, rfl⟩ := exists_writer?_accept hv
    exact h.unseated v r hv₀ hr
  slotted k hk := slotted_accept (h.slotted k hk)
  covered k hk := by
    obtain ⟨m, hm, hcovers⟩ := h.covered k hk
    obtain ⟨m', hm', hcovers'⟩ := hcovers.accept h.toPosted hw hs hc hfull hroom event
    exact ⟨m', Nat.le_trans hm' (Nat.succ_le_succ hm), hcovers'⟩
  manned k x hk := by
    rw [collector_accept]
    intro hopen hmem hx
    by_cases hxc : x = c
    · subst hxc
      have hseat : Seat d w j s.thread x := ⟨s, hw, hs, rfl, hc⟩
      obtain rfl := h.own w j _ x k hseat (ledgers_of_mem hmem)
      exact ⟨w, s.thread, Posted.seat_accept.mpr hseat⟩
    · rw [chunk_accept_of_ne hxc] at hx
      obtain ⟨v, t, hseat⟩ := h.manned k x hk hopen hmem hx
      exact ⟨v, t, Posted.seat_accept.mpr hseat⟩

/-- Time passes, and nothing more is counted. -/
theorem later (h : Stocked F G n d) : Stocked F G (n + 1) d :=
  h.mono (fun _ => id) (fun _ => id) (Nat.le_succ n)

theorem writeEnds {e : Emission} {now : Reading} {r : Bool × Depot} (h : Stocked F G n d)
    (hends : WriteEnds d w e now r) : Stocked F G (n + 1) r.2 := by
  cases hends with
  | closed _ hmoves => exact (h.moves hmoves).later
  | filtered _ hw _ _ hscreen => exact (hscreen ▸ h.rescreen hw e now.arrival).later
  | refused _ hw _ _ hscreen hbefore hrefuses hafter =>
    have hscreened := hscreen ▸ h.rescreen hw e now.arrival
    exact (((hscreened.moves hbefore).alike_of_writers hrefuses.toAlike
      hrefuses.sameWriters).moves hafter).later
  | written _ hw hs _ hscreen hbefore hw₁ hfull _ hagree hroom =>
    have hscreened := hscreen ▸ h.rescreen hw e now.arrival
    exact ((hscreened.moves hbefore).accept hw₁ hs rfl hfull hroom _).agree hagree

/-! ### Calls -/

theorem newCollector (h : Stocked F G n d) (o : Options) :
    Stocked F G n (d.newCollector o).2 where
  toPosted := h.toPosted.newCollector o
  unseated := h.unseated
  slotted k hk := slotted_newCollector o (h.slotted k hk)
  covered k hk := by
    by_cases hlast : k = d.collectors.size
    · refine ⟨0, Nat.zero_le n, ?_, ?_, fun _ _ => Nat.zero_le _⟩
      · rw [hlast, collector_newCollector]
        rfl
      · rw [held, contents_newCollector, contents, collector_of_ge (Nat.le_of_eq hlast.symm)]
        exact Nat.le_refl 0
    · exact h.covered_same hk (collector_newCollector_of_ne hlast o) (contents_newCollector d o k)
  manned k c hk hopen hmem := by
    have hopen₀ : (d.collector k).closed = false :=
      (congr_newCollector Collector.closed o rfl k).symm.trans hopen
    rw [(Still.newCollector d o).ledger] at hmem
    exact h.manned k c hk hopen₀ hmem

theorem newWriter (h : Stocked F G n d) (hk : k < d.collectors.size) (thread : Int)
    (name : Option String) : Stocked F G n (d.newWriter k thread name).2 := by
  have hposted := h.toPosted.newWriter hk thread name
  obtain ⟨d₁, hagree, heq⟩ := newWriter_eq d k thread name
  rw [heq] at hposted ⊢
  have h₁ := h.agree hagree
  refine ⟨hposted, fun v r hv hr => ?_, h₁.slotted, fun j hj => h₁.covered_same hj rfl rfl,
    fun j c hj hopen hmem hc => ?_⟩
  · by_cases hlast : v = d₁.writers.size
    · rw [hlast, writer?_enlist, Option.some.injEq] at hv
      rw [← hv]
    · rw [writer?_enlist_of_ne hlast] at hv
      exact h₁.unseated v r hv hr
  · obtain ⟨v, t, r, hv, hseat⟩ := h₁.manned j c hj hopen hmem hc
    have hlast : v ≠ d₁.writers.size := by
      rintro rfl
      exact absurd hv (by simp [writer?])
    exact ⟨v, t, r, (writer?_enlist_of_ne hlast _).trans hv, hseat⟩

/-- A frozen session is no longer spoken of. -/
theorem freeze (h : Stocked F G n d) (k : CollectorId) :
    Stocked (k :: F) (k :: G) n (d.freeze k).2 := by
  obtain ⟨-, hfrozen⟩ := freeze_spec d k
  have hout : ∀ {L : List CollectorId}, ∀ j, j ∉ k :: L → j ≠ k ∧ j ∉ L :=
    fun j hj => by simpa using hj
  refine ⟨h.toPosted.freeze k, fun w s hw => h.unseated w s (writer?_freeze d k w ▸ hw), ?_, ?_, ?_⟩
  · intro j hj
    rw [hfrozen.others j (hout j hj).1]
    exact h.slotted j (hout j hj).2
  · exact fun j hj => h.covered_same (hout j hj).2 (hfrozen.others j (hout j hj).1)
      (contents_freeze d (hout j hj).1)
  · intro j c hj hopen hmem hc
    rw [hfrozen.chunk j c (ledgers_of_mem hmem)] at hc
    rw [hfrozen.others j (hout j hj).1] at hopen hmem
    obtain ⟨w, t, hseat⟩ := h.manned j c (hout j hj).2 hopen hmem hc
    exact ⟨w, t, (seat_freeze d k).mpr hseat⟩

theorem call (h : Stocked F G n d) (c : Call) :
    Stocked (c.freezes ++ F) (c.freezes ++ G) (n + 1) (c.apply d) := by
  cases c with
  | newCollector o => exact (h.newCollector o).later
  | newWriter k thread name =>
    dsimp only [Call.apply]
    split
    · next hk => exact (h.newWriter hk thread name).later
    · exact h.later
  | write w e now => exact h.writeEnds (h.owned.writeEnds w e now)
  | detach w => exact (h.moves (moves_detach d w)).later
  | dropWriter w => exact (h.moves (moves_dropWriter d w)).later
  | close k => exact (h.move (.turn k (.close d))).later
  | closeWriters k => exact (h.agree (agree_closeWriters d k)).later
  | freeze k => exact (h.freeze k).later

/-! ### What is done by hand -/

theorem aside (h : Stocked F G n d) (ha : Aside d d') (howned : Owned d') :
    Stocked F G n d' where
  toPosted := h.toPosted.aside ha howned
  unseated w s hw := h.unseated w s (ha.writer? w ▸ hw)
  slotted k hk := by
    rw [ha.collector]
    exact h.slotted k hk
  covered _ hk := h.covered_same hk (ha.collector _) (ha.contents _)
  manned k c hk hopen hmem hc := by
    rw [ha.collector] at hopen hmem
    rw [ha.events k c (ledgers_of_mem hmem)] at hc
    obtain ⟨w, t, hseat⟩ := h.manned k c hk hopen hmem hc
    exact ⟨w, t, ha.seat.mpr hseat⟩

theorem enterChunk (h : Stocked F G n d) (hroom : (d.collector j).hasChunkRoom = true) :
    Stocked F G n (d.enterChunk j).2 where
  toPosted := h.toPosted.enterChunk j
  unseated w s hw := by
    rw [writer?, enterChunk_writers, ← writer?] at hw
    exact h.unseated w s hw
  slotted k hk := slotted_enterChunk hroom (h.slotted k hk)
  covered k hk := h.covered_sheds hk (h.owned.sheds_enterChunk j k)
  manned k c hk hopen hmem hc := by
    have hevents : ((d.enterChunk j).2.chunk c).events = (d.chunk c).events := take_events d c
    rw [closed_enterChunk] at hopen
    rw [hevents] at hc
    rcases mem_ledger_enterChunk hmem with hmem | ⟨-, hfresh⟩
    · obtain ⟨w, t, hseat⟩ := h.manned k c hk hopen hmem hc
      exact ⟨w, t, Posted.seat_enterChunk.mpr hseat⟩
    · obtain rfl : c = (d.enterChunk j).1 := congrArg LedgerEntry.chunk hfresh
      exact absurd (h.owned.events_fresh j) hc

theorem markIdle (h : Stocked F G n d) (hc : (d.Ledgers j c → d.filling c = 0) ∨ j ∈ G) :
    Stocked F G n (d.markIdle j c) where
  toPosted := h.toPosted.markIdle hc
  unseated := h.unseated
  slotted k hk := (h.slotted k hk).congr (slots_markIdle d j k c)
  covered k hk := by
    have hoptions : ((d.markIdle j c).collector k).options = (d.collector k).options := by
      rw [collector_markIdle]
    exact h.covered_sheds hk (.of_same hoptions (same_markIdle d j c k))
  manned k x hk hopen hmem hx := by
    rw [closed_markIdle] at hopen
    rcases mem_ledger_markIdle hmem with hmem | ⟨-, heq⟩
    · exact h.manned k x hk hopen hmem hx
    · exact absurd (congrArg LedgerEntry.active heq) (by simp)

theorem evict (h : Stocked F G n d) (hevict : d.evictOldest? j = some d') :
    Stocked F G n d' where
  toPosted := h.toPosted.evict hevict
  unseated w s hw := by
    rw [writer?, writers_evictOldest? hevict] at hw
    exact h.unseated w s hw
  slotted k hk := slotted_evict hevict (h.slotted k hk)
  covered k hk := h.covered_sheds hk (.of_evict hevict k)
  manned k c hk hopen hmem hc := by
    rw [events_evict hevict (Nat.le_add_right_of_le (ledgered_pos (ledgers_of_mem hmem)))] at hc
    rw [closed_evictOldest? hevict] at hopen
    obtain ⟨w, t, hseat⟩ := h.manned k c hk hopen ((sublist_evictOldest? hevict k).subset hmem) hc
    exact ⟨w, t, (seat_evict hevict).mpr hseat⟩

theorem rent (h : Stocked F G n d) (k : CollectorId) : Stocked F G n (d.rent k).2 := by
  have howned := h.owned.rent k
  cases hrent : d.rent k with
  | mk o d' =>
    cases o with
    | none => exact h.moves (Moves.of_turns (rent_none hrent))
    | some r =>
      rw [hrent] at howned
      obtain ⟨d₁, d₂, hturns, -, hroom, hagree, -, rfl⟩ := rent_some hrent
      have hentered := ((h.moves (Moves.of_turns hturns)).enterChunk hroom).agree hagree
      exact hentered.aside (.holdings d₂ _ _) howned

/-- A chunk that was rented by hand is filled by no writer. -/
theorem filling_of_rental? (h : Owned d) {r : RentalId} (hr : d.rental? r = some c) :
    d.filling c = 0 := by
  have hheld := heldIn_of_rental? hr
  have hone := h.writable_le c
  rw [writable] at hone
  omega

theorem release (h : Stocked F G n d) (k : CollectorId) (r : RentalId) :
    Stocked F G n (d.release k r) := by
  have howned := h.owned.release k r
  unfold Depot.release at howned ⊢
  split
  · next c hr =>
    have hdropped : Stocked F G n (d.dropRental r) :=
      h.aside (.holdings d _ d.shares) (h.owned.dropRental r)
    have hfilling : d.filling c = 0 := filling_of_rental? h.owned hr
    simp only [hr] at howned
    unfold releaseChunk at howned ⊢
    split
    · next hclosed =>
      rw [if_pos hclosed] at howned
      exact hdropped.aside (.giveBack _ c) howned
    · exact hdropped.markIdle (.inl fun _ => hfilling)
  · exact h

/-! ### Operations -/

/-- **Every operation that brings in no event by hand keeps the stock.** -/
theorem op (h : Stocked F G n d) {o : Op} (ho : o.feeds = false) :
    Stocked (o.freezes ++ F) (o.spoils d ++ G) (n + 1) (o.apply d) := by
  have howned := h.owned.op o
  cases o with
  | call c => exact h.call c
  | rent k => exact (h.rent k).later
  | writeRental r e => exact absurd ho (by simp [Op.feeds])
  | release k r => exact (h.release k r).later
  | dropRental r => exact (h.aside (.holdings d _ d.shares) howned).later
  | shareRental r =>
    refine (h.aside ?_ howned).later
    dsimp only [Op.apply]
    unfold shareRental
    split <;> exact .holdings d _ _
  | markIdle k c =>
    dsimp only [Op.spoils, Op.apply]
    split
    · next hc => exact (h.markIdle (.inl hc)).later
    · have hspoilt : Stocked F ([k] ++ G) n d :=
        h.mono (fun _ => id) (fun _ => List.mem_cons_of_mem k) (Nat.le_refl n)
      exact (hspoilt.markIdle (.inr List.mem_cons_self)).later
  | takeShare => exact (h.aside ((Aside.take d).trans (.holdings _ _ _)) howned).later
  | makeShare capacity => exact (h.aside (.makeShare d capacity) howned).later
  | cloneShare q =>
    refine (h.aside ?_ howned).later
    dsimp only [Op.apply]
    split <;> exact .holdings d _ _
  | dropShare q => exact (h.aside (.holdings d d.rentals _) howned).later
  | resetShare q => exact (h.aside (.resetShare d q) howned).later
  | returnShare q =>
    refine (h.aside ?_ howned).later
    dsimp only [Op.apply]
    unfold returnShare
    split
    · exact (Aside.holdings d _ _).trans (.giveBack _ _)
    · exact .holdings d _ _
  | offerEvent k => exact absurd ho (by simp [Op.feeds])
  | recordDropped k reason =>
    have hrefuses := refuses_recordDropped d k reason
    exact (h.alike_of_writers hrefuses.toAlike hrefuses.sameWriters).later
  | recordSampledOut k =>
    have hrefuses := refuses_recordSampledOut d k
    exact (h.alike_of_writers hrefuses.toAlike hrefuses.sameWriters).later
  | recordRateLimited k =>
    have hrefuses := refuses_recordRateLimited d k
    exact (h.alike_of_writers hrefuses.toAlike hrefuses.sameWriters).later
  | nameThread k thread name => exact (h.agree (agree_nameThread d k thread name)).later
  | newLink => exact (h.agree (.links d _)).later
  | registerLink k l => exact (h.agree (agree_registerLink d k l)).later
  | closeLink l => exact (h.agree (agree_closeLink d l)).later
  | screen w e arrival =>
    dsimp only [Op.apply]
    split
    · next s hw => exact (h.rescreen hw e arrival).later
    · exact h.later
  | letGo w =>
    dsimp only [Op.apply]
    split
    · next k hk =>
      obtain ⟨s, hw, hs⟩ := Option.bind_eq_some_iff.mp hk
      exact (h.move (.letGo hw hs)).later
    · exact h.later
  | holdRoom w =>
    dsimp only [Op.apply]
    split
    · next k hk =>
      obtain ⟨s, hw, hs⟩ := Option.bind_eq_some_iff.mp hk
      exact (h.moves (moves_holdRoom hw hs)).later
    · exact h.later
  | evict k =>
    dsimp only [Op.apply]
    cases hevict : d.evictOldest? k with
    | none => exact h.later
    | some d' => exact (h.evict hevict).later

/-! ### What feeds by hand -/

/-- What is left of the stock once all that is said of sessions is given up:
who sits where, and nowhere else. -/
theorem forgetting (h : Stocked F G n d) (howned : Owned d')
    (hsize : d'.collectors.size = d.collectors.size) (hwriter : ∀ w, d'.writer? w = d.writer? w)
    (hoptions : ∀ k, (d'.collector k).options = (d.collector k).options)
    (hledger : ∀ k, (d'.collector k).ledger = (d.collector k).ledger) :
    Stocked (List.range d'.collectors.size) (List.range d'.collectors.size) n d' := by
  have hge : ∀ k ∉ List.range d'.collectors.size, d'.collectors.size ≤ k := fun k hk => by
    simpa using hk
  have hempty : ∀ k ∉ List.range d'.collectors.size, (d'.collector k).ledger = [] := fun k hk => by
    rw [collector_of_ge (hge k hk)]
    rfl
  have hseats : ∀ {w k t c}, Seat d' w k t c → Seat d w k t c := by
    rintro w k t c ⟨s, hw, hs⟩
    exact ⟨s, hwriter w ▸ hw, hs⟩
  have hattached : ∀ w s k, d'.writer? w = some s → s.collector = some k →
      k < d'.collectors.size := fun w s k hw hk => hsize ▸ h.attached w s k (hwriter w ▸ hw) hk
  refine ⟨⟨howned, hattached, fun w s k hw hk => ?_, ?_, ?_, fun k hk => ?_⟩, ?_, ?_, ?_, ?_⟩
  · rw [hoptions]
    exact h.honest w s k (hwriter w ▸ hw) hk
  · rintro w k t c ⟨s, hw, hs, -⟩ hk
    exact absurd (hattached w s k hw hs) (Nat.not_lt.mpr (hge k hk))
  · intro w k t c j hseat hin
    rw [Ledgers, hledger] at hin
    exact h.own w k t c j (hseats hseat) hin
  · rw [contents, hempty k hk, collector_of_ge (hge k hk)]
    rfl
  · exact fun w s hw => h.unseated w s (hwriter w ▸ hw)
  · intro k hk
    rw [collector_of_ge (hge k hk)]
    exact .new {}
  · exact fun k hk => ⟨0, Nat.zero_le n, .of_ge (hge k hk)⟩
  · intro k c hk _ hmem
    rw [hempty k hk] at hmem
    exact absurd hmem List.not_mem_nil

/-- Writing by hand moves no writer and no ledger. -/
theorem writeRental (h : Stocked F G n d) (r : RentalId) (e : Event) :
    ∃ F' G', Stocked F' G' n (d.writeRental r e).2 := by
  have howned := h.owned.writeRental r e
  unfold Depot.writeRental at howned ⊢
  split
  · next c hr =>
    simp only [hr] at howned
    exact ⟨_, _, h.forgetting howned rfl (fun _ => rfl) (fun _ => rfl) fun _ => rfl⟩
  · exact ⟨F, G, h⟩

/-- Having an event admitted by hand moves no writer. -/
theorem admitEvent (h : Stocked F G n d) (k : CollectorId) :
    ∃ F' G', Stocked F' G' n (d.admitEvent k).2 := by
  cases hclosed : (d.collector k).closed with
  | true => exact ⟨F, G, by rwa [admitEvent_of_closed hclosed]⟩
  | false =>
    have howned := h.owned.admitEvent k
    cases hoffer : d.admitEvent k with
    | mk ok d' =>
      rw [hoffer] at howned
      cases ok with
      | true =>
        obtain ⟨d₁, hturns, -, -, hagree⟩ := admitEvent_true hoffer
        have h₁ := h.moves (Moves.of_turns hturns)
        refine ⟨_, _, h₁.forgetting howned ?_ hagree.writer?_eq ?_ ?_⟩
        · exact hagree.size.trans Array.size_modify
        · intro j
          rw [hagree.options]
          exact congr_modifyCollector (f := Collector.countEvent) Collector.options (fun _ => rfl) j
        · intro j
          rw [hagree.ledger]
          exact congr_modifyCollector (f := Collector.countEvent) Collector.ledger (fun _ => rfl) j
      | false =>
        obtain ⟨d₁, reason, hbefore, hafter⟩ := admitEvent_false hoffer hclosed
        have hrefuses := refuses_recordDropped d₁ k reason
        have hrefused := (h.moves (Moves.of_turns hbefore)).alike_of_writers hrefuses.toAlike
          hrefuses.sameWriters
        exact ⟨F, G, hrefused.moves (Moves.of_turns hafter)⟩

end Stocked

end Depot

/-! ## Runs -/

theorem Tended.of_concat {capacity : Nat} {ops : List Op} {o : Op} {k : CollectorId}
    (h : Tended capacity (ops ++ [o]) k) : Tended capacity ops k := by
  intro before c after heq
  refine h before c (after ++ [o]) ?_
  rw [heq, List.append_assoc, List.cons_append]

theorem of_mem_freezes {o : Op} {k : CollectorId} (hk : k ∈ o.freezes) :
    o = .call (.freeze k) := by
  cases o with
  | call c => exact congrArg Op.call (Call.eq_of_mem_freezes hk)
  | _ => exact absurd hk List.not_mem_nil

/-- An operation spoils a session by a freeze, or by marking a chunk idle that
a writer fills. -/
theorem of_mem_spoils {capacity : Nat} {ops : List Op} {o : Op} {k : CollectorId}
    (hk : k ∈ o.spoils (runOps capacity ops)) :
    o = .call (.freeze k) ∨ ¬ Tended capacity (ops ++ [o]) k := by
  cases o with
  | call c =>
    have hfreezes : k ∈ (Op.call c).freezes := hk
    exact .inl (of_mem_freezes hfreezes)
  | markIdle j c =>
    dsimp only [Op.spoils] at hk
    split at hk
    · exact absurd hk List.not_mem_nil
    · next hc =>
      obtain rfl := List.mem_singleton.mp hk
      exact .inr fun htended => hc (htended ops c [] rfl)
  | _ => exact absurd hk List.not_mem_nil

/-- **The stock is kept through every run that only writers feed**, in every
session that was not frozen and, as to who sits where, was tended. -/
theorem stocked_runOps (capacity : Nat) {ops : List Op} (h : ThroughWriters ops) :
    ∃ frozen spoilt, Stocked frozen spoilt ops.length (runOps capacity ops) ∧
      (∀ k ∈ frozen, .call (.freeze k) ∈ ops) ∧
      ∀ k ∈ spoilt, .call (.freeze k) ∈ ops ∨ ¬ Tended capacity ops k := by
  induction ops using List.reverseRecOn with
  | nil => exact ⟨[], [], .ofCapacity capacity, by simp, by simp⟩
  | append_singleton ops o ih =>
    have hlast : o ∈ ops ++ [o] := List.mem_append_right _ (List.mem_singleton.mpr rfl)
    obtain ⟨frozen, spoilt, hstocked, hfrozen, hspoilt⟩ :=
      ih fun o' ho' => h o' (List.mem_append_left _ ho')
    refine ⟨o.freezes ++ frozen, o.spoils (runOps capacity ops) ++ spoilt, ?_,
      fun k hk => ?_, fun k hk => ?_⟩
    · rw [runOps_concat, List.length_append]
      exact hstocked.op (h o hlast)
    · rcases List.mem_append.mp hk with hk | hk
      · exact of_mem_freezes hk ▸ hlast
      · exact List.mem_append_left _ (hfrozen k hk)
    · rcases List.mem_append.mp hk with hk | hk
      · rcases of_mem_spoils hk with rfl | hnot
        · exact .inl hlast
        · exact .inr hnot
      · refine (hspoilt k hk).imp (List.mem_append_left _) ?_
        exact fun hnot htended => hnot htended.of_concat

/-- **Who sits where is kept through every run**, whatever feeds it: only what
is counted is no longer said of sessions that are fed by hand. -/
theorem exists_stocked_runOps (capacity : Nat) (ops : List Op) :
    ∃ F G, Stocked F G ops.length (runOps capacity ops) := by
  induction ops using List.reverseRecOn with
  | nil => exact ⟨[], [], .ofCapacity capacity⟩
  | append_singleton ops o ih =>
    obtain ⟨F, G, h⟩ := ih
    rw [runOps_concat, List.length_append]
    cases ho : o.feeds with
    | false => exact ⟨_, _, h.op ho⟩
    | true =>
      cases o with
      | writeRental r e =>
        obtain ⟨F', G', hfed⟩ := h.writeRental r e
        exact ⟨F', G', hfed.later⟩
      | offerEvent k =>
        obtain ⟨F', G', hfed⟩ := h.admitEvent k
        exact ⟨F', G', hfed.later⟩
      | _ => exact absurd ho (by simp [Op.feeds])

end EventTrace
