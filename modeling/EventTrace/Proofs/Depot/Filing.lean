import EventTrace.Proofs.Depot.Chronicle
/-!
# Depot — every thread's events stay in order

Within one session no two writers share a thread, so the events of a thread
are those of one writer. `Filed` is what keeps them apart and in order: every
chunk of a ledger holds the events of a single thread, an active entry of an
open session has its writer, and behind the chunk a writer sits at none holds
an event of that writer's thread. An eviction takes the oldest idle chunk, so
what it takes of a thread is the oldest that thread has
(`Filed.apart_of_evicted`).
-/

namespace EventTrace

namespace Depot

variable {d d' : Depot} {c x : ChunkId} {k j : CollectorId} {w v : WriterId} {s : Writer}
  {t u : Int} {E E' : List (CollectorId × Int)} {F : List CollectorId}

/-- The chunks of a session's ledger, the oldest first. -/
def chunksOf (d : Depot) (k : CollectorId) : List ChunkId :=
  (d.collector k).ledger.map LedgerEntry.chunk

theorem mem_chunksOf : c ∈ d.chunksOf k ↔ d.Ledgers k c := ledgers_iff.symm

/-- Every writer is on record with the session it is in and its thread. -/
def AtHome (E : List (CollectorId × Int)) (d : Depot) : Prop :=
  ∀ w s k, d.writer? w = some s → s.collector = some k → E[w]? = some (k, s.thread)

/-- Chunks hold the events of one thread each, and those of a thread are in
order, in every session that was not frozen. -/
structure Filed (E : List (CollectorId × Int)) (F : List CollectorId) (d : Depot) : Prop where
  posted : Posted F d
  home : AtHome E d
  /-- A chunk of a ledger holds the events of a single thread on record. -/
  alone : ∀ k c, k ∉ F → d.Ledgers k c →
    ∃ t, (k, t) ∈ E ∧ ∀ e ∈ (d.chunk c).events, e.thread = t
  /-- A writer's chunk holds the events of its thread. -/
  signed : ∀ w k t c, k ∉ F → Seat d w k t c → ∀ e ∈ (d.chunk c).events, e.thread = t
  /-- At an active entry of an open session someone sits. -/
  held : ∀ k c, k ∉ F → (d.collector k).closed = false → ⟨c, true⟩ ∈ (d.collector k).ledger →
    ∃ w t, Seat d w k t c
  /-- Behind a writer's chunk no event is of its thread. -/
  latest : ∀ w k t c x, k ∉ F → Seat d w k t c → [c, x].Sublist (d.chunksOf k) →
    ∀ e ∈ (d.chunk x).events, e.thread ≠ t

/-! ## Records -/

/-- The session and thread of a seat are on record. -/
theorem AtHome.seat (h : AtHome E d) (hseat : Seat d w k t c) : E[w]? = some (k, t) := by
  obtain ⟨s, hw, hk, rfl, -⟩ := hseat
  exact h w s k hw hk

/-- Where no record is kept twice, writers of a session differ by their
threads. -/
theorem AtHome.thread_ne (h : AtHome E d) (hE : E.Nodup) (hw : Seat d w k t c)
    (hv : Seat d v k u x) (hne : v ≠ w) : u ≠ t := by
  rintro rfl
  have hrecord := (h.seat hw).trans (h.seat hv).symm
  have hlt := (List.getElem?_eq_some_iff.mp (h.seat hw)).1
  exact hne ((List.getElem?_inj hlt hE).mp hrecord).symm

theorem AtHome.samePlaces (h : AtHome E d) (hsame : SamePlaces d d') : AtHome E d' := by
  intro w s' k hw' hk
  obtain ⟨s, hw, hthread, hcollector⟩ := hsame.writer w s' hw'
  rw [hthread]
  refine h w s k hw ?_
  rcases hcollector with heq | hnone
  · rw [← heq, hk]
  · exact absurd (hnone.symm.trans hk) (by simp)

/-! ## A fresh chunk -/

theorem pair_sublist_concat {α : Type} {l : List α} {a b z : α}
    (h : [a, b].Sublist (l ++ [z])) : [a, b].Sublist l ∨ b = z := by
  obtain ⟨l₁, l₂, heq, hl₁, hl₂⟩ := List.sublist_append_iff.mp h
  rcases List.sublist_singleton.mp hl₂ with rfl | rfl
  · rw [List.append_nil] at heq
    exact .inl (heq ▸ hl₁)
  · exact .inr (by simpa using congrArg List.getLast? heq)

theorem chunksOf_hold (hk : k < d.collectors.size) :
    (d.hold w k).chunksOf k = d.chunksOf k ++ [(d.enterChunk k).1] := by
  show ((d.enterChunk k).2.collector k).ledger.map LedgerEntry.chunk = _
  rw [ledger_enterChunk hk, List.map_append, chunksOf]
  rfl

theorem chunksOf_hold_of_ne (h : j ≠ k) : (d.hold w k).chunksOf j = d.chunksOf j := by
  show ((d.enterChunk k).2.collector j).ledger.map LedgerEntry.chunk = _
  rw [collector_enterChunk_of_ne h, chunksOf]

theorem ledgers_hold (h : (d.hold w k).Ledgers j c) :
    d.Ledgers j c ∨ (j = k ∧ c = (d.enterChunk k).1) := by
  obtain ⟨entry, hmem, rfl⟩ := h
  rcases mem_ledger_enterChunk hmem with hmem | ⟨rfl, rfl⟩
  · exact .inl (ledgers_of_mem hmem)
  · exact .inr ⟨rfl, rfl⟩

/-- Who sat before a writer sat down sits after. -/
theorem Seat.hold (hv : Seat d v j t c) (hw : d.writer? w = some s) (hs : s.collector = some k)
    (hc : s.chunk = none) : Seat (d.hold w k) v j t c := by
  refine (seat_hold hw hs).mpr (.inr ⟨?_, hv⟩)
  rintro rfl
  obtain ⟨r, hr, -, -, hrc⟩ := hv
  rw [hw, Option.some.injEq] at hr
  rw [← hr, hc] at hrc
  exact absurd hrc (by simp)

namespace Filed

theorem ofCapacity (n : Nat) : Filed [] F (Depot.ofCapacity n) := by
  have hledger : ∀ k, ((Depot.ofCapacity n).collector k).ledger = [] := fun k => by
    rw [collector_of_ge (Nat.zero_le k)]
    rfl
  have hseat : ∀ w k t c, ¬ Seat (Depot.ofCapacity n) w k t c := by
    rintro w k t c ⟨s, hw, -⟩
    exact absurd hw (by simp [writer?, Depot.ofCapacity])
  refine ⟨.ofCapacity n, ?_, ?_, fun w k t c _ hw => absurd hw (hseat w k t c), ?_,
    fun w k t c x _ hw => absurd hw (hseat w k t c)⟩
  · intro w s k hw
    exact absurd hw (by simp [writer?, Depot.ofCapacity])
  · intro k c _ hin
    obtain ⟨entry, hmem, -⟩ := hin
    rw [hledger] at hmem
    exact absurd hmem List.not_mem_nil
  · intro k c _ _ hmem
    rw [hledger] at hmem
    exact absurd hmem List.not_mem_nil

/-! ## Moves -/

/-- A quiet change keeps the order. -/
theorem quiet (h : Filed E F d) (hposted : Posted F d') (hquiet : Quiet d d')
    (hhome : AtHome E' d') (hE : ∀ p ∈ E, p ∈ E') : Filed E' F d' := by
  have hchunks : ∀ k, d'.chunksOf k = d.chunksOf k := hquiet.entries
  -- a chunk of a ledger is referred to, so its events stay
  have hevents : ∀ k c, d'.Ledgers k c → (d'.chunk c).events = (d.chunk c).events := by
    intro k c hin
    have := ledgered_pos hin
    exact hquiet.events c (by omega)
  refine ⟨hposted, hhome, ?_, ?_, ?_, ?_⟩
  · intro k c hk hin
    obtain ⟨t, hin', hall⟩ := h.alone k c hk (hquiet.ledgers.mp hin)
    exact ⟨t, hE _ hin', by rwa [hevents k c hin]⟩
  · intro w k t c hk hw
    have := hw.filling_pos
    rw [hquiet.events c (by omega)]
    exact h.signed w k t c hk (hquiet.seat w k t c hw)
  · intro k c hk hopen hmem
    have hopen' : (d.collector k).closed = false := by
      cases hclosed : (d.collector k).closed with
      | false => rfl
      | true => exact absurd (hopen.symm.trans (hquiet.closed k hclosed)) (by simp)
    obtain ⟨w, t, hw⟩ := h.held k c hk hopen' (hquiet.active k c hmem)
    exact ⟨w, t, hquiet.sits w k t c hopen hmem hw⟩
  · intro w k t c x hk hw hsub
    have hx : x ∈ d'.chunksOf k := hsub.subset (by simp)
    rw [hevents k x (mem_chunksOf.mp hx)]
    rw [hchunks] at hsub
    exact h.latest w k t c x hk (hquiet.seat w k t c hw) hsub

/-- An eviction keeps the order of what is left. -/
theorem evict (h : Filed E F d) (hposted : Posted F d') (hevict : d.evictOldest? j = some d') :
    Filed E F d' := by
  have hsub := sublist_evictOldest? hevict
  have hevents : ∀ k c, d'.Ledgers k c → (d'.chunk c).events = (d.chunk c).events := by
    intro k c hc
    have := ledgered_pos hc
    exact events_evict hevict (by omega)
  refine ⟨hposted, ?_, ?_, ?_, ?_, ?_⟩
  · intro w s k hw
    rw [writer?, writers_evictOldest? hevict, ← writer?] at hw
    exact h.home w s k hw
  · intro k c hk hc
    rw [hevents k c hc]
    exact h.alone k c hk (ledgers_of_evictOldest? hevict hc)
  · intro w k t c hk hw
    have := hw.filling_pos
    rw [events_evict hevict (by omega)]
    exact h.signed w k t c hk ((seat_evict hevict).mp hw)
  · intro k c hk hopen hmem
    rw [closed_evictOldest? hevict] at hopen
    obtain ⟨w, t, hw⟩ := h.held k c hk hopen ((hsub k).subset hmem)
    exact ⟨w, t, (seat_evict hevict).mpr hw⟩
  · intro w k t c x hk hw hlater
    have hx : x ∈ d'.chunksOf k := hlater.subset (by simp)
    rw [hevents k x (mem_chunksOf.mp hx)]
    exact h.latest w k t c x hk ((seat_evict hevict).mp hw)
      (hlater.trans ((hsub k).map LedgerEntry.chunk))

/-- A writer that sits down at a fresh chunk does so at the end. -/
theorem hold (h : Filed E F d) (hposted : Posted F (d.hold w k)) (hw : d.writer? w = some s)
    (hs : s.collector = some k) (hc : s.chunk = none) (hopen : (d.collector k).closed = false)
    (hroom : (d.collector k).hasChunkRoom = true) : Filed E F (d.hold w k) := by
  have hk := h.posted.attached w s k hw hs
  have hempty := h.posted.owned.events_fresh k
  have hplaces : SamePlaces d (d.hold w k) := .of_moves (.single (.hold hw hs hc hopen hroom))
  refine ⟨hposted, h.home.samePlaces hplaces, ?_, ?_, ?_, ?_⟩
  · intro i c hi hin
    rw [events_hold]
    rcases ledgers_hold hin with hin | ⟨rfl, rfl⟩
    · exact h.alone i c hi hin
    · refine ⟨s.thread, List.mem_of_getElem? (h.home w s i hw hs), ?_⟩
      rw [hempty]
      exact fun e he => absurd he (Array.not_mem_empty e)
  · intro v i t c hi hv
    rw [events_hold]
    rcases (seat_hold hw hs).mp hv with ⟨-, rfl, rfl, rfl⟩ | ⟨-, hv⟩
    · rw [hempty]
      exact fun e he => absurd he (Array.not_mem_empty e)
    · exact h.signed v i t c hi hv
  · intro i c hi hopen' hentry
    have hopen : (d.collector i).closed = false := by
      rwa [hold_closed] at hopen'
    rcases mem_ledger_enterChunk hentry with hentry | ⟨rfl, hfresh⟩
    · obtain ⟨v, t, hv⟩ := h.held i c hi hopen hentry
      exact ⟨v, t, hv.hold hw hs hc⟩
    · exact ⟨w, s.thread, (seat_hold hw hs).mpr
        (.inl ⟨rfl, rfl, rfl, congrArg LedgerEntry.chunk hfresh⟩)⟩
  · intro v i t c x hi hv hlater
    rw [events_hold]
    rcases (seat_hold hw hs).mp hv with ⟨-, rfl, -, rfl⟩ | ⟨-, hsat⟩
    · -- nothing comes behind the fresh chunk, which was in no ledger
      rw [chunksOf_hold hk] at hlater
      rcases pair_sublist_concat hlater with hlater | rfl
      · have hin : d.Ledgers i (d.enterChunk i).1 := mem_chunksOf.mp (hlater.subset (by simp))
        exact absurd hin (h.posted.owned.not_ledgers_enterChunk i i)
      · rw [hempty]
        exact fun e he => absurd he (Array.not_mem_empty e)
    · by_cases hik : i = k
      · subst hik
        rw [chunksOf_hold hk] at hlater
        rcases pair_sublist_concat hlater with hlater | rfl
        · exact h.latest v i t c x hi hsat hlater
        · rw [hempty]
          exact fun e he => absurd he (Array.not_mem_empty e)
      · rw [chunksOf_hold_of_ne hik] at hlater
        exact h.latest v i t c x hi hsat hlater

/-- **Every move keeps the order.** -/
theorem move (h : Filed E F d) (hm : Move d d') : Filed E F d' := by
  have hposted := h.posted.move hm
  rcases h.posted.owned.move_cases hm with
    hquiet | ⟨j, -, hevict⟩ | ⟨w, s, k, hw, hs, hc, hopen, hroom, rfl⟩
  · exact h.quiet hposted hquiet (h.home.samePlaces (.of_moves (.single hm))) fun _ hp => hp
  · exact h.evict hposted hevict
  · exact h.hold hposted hw hs hc hopen hroom

theorem moves (h : Filed E F d) (hm : Moves d d') : Filed E F d' := by
  induction hm with
  | refl => exact h
  | tail _ hm ih => exact ih.move hm

/-! ## Calls -/

/-- Bookkeeping keeps the order. -/
theorem alike (h : Filed E F d) (hposted : Posted F d') (ha : Alike d d') : Filed E F d' :=
  h.quiet hposted (quiet_of_alike ha) (h.home.samePlaces (.of_alike ha)) fun _ hp => hp

theorem agree (h : Filed E F d) (ha : Agree d d') : Filed E F d' :=
  h.alike (h.posted.agree ha) ha.toAlike

/-- What a chunk holds after an event was accepted it held before, but for
that event. -/
theorem mem_accept (h : Owned d) (hw : d.writer? w = some s) (hc : s.chunk = some c)
    (hfull : (d.chunk c).isFull = false) {event e : Event}
    (he : e ∈ ((d.accept k w c event).chunk x).events) :
    e ∈ (d.chunk x).events ∨ (x = c ∧ e = event) := by
  by_cases hx : x = c
  · subst hx
    rw [chunk_accept (h.lt_size_of_writer? hw hc) hfull, Array.mem_push] at he
    exact he.imp id fun heq => ⟨rfl, heq⟩
  · rw [chunk_accept_of_ne hx] at he
    exact .inl he

/-- **An accepted event goes behind those of its thread**, and no writer of
another thread sits before it. -/
theorem accept (h : Filed E F d) (hE : E.Nodup) (hw : d.writer? w = some s)
    (hs : s.collector = some k) (hc : s.chunk = some c) (hfull : (d.chunk c).isFull = false)
    (event : Event) (hthread : event.thread = s.thread) :
    Filed E F (d.accept k w c event) := by
  have hseat : Seat d w k s.thread c := ⟨s, hw, hs, rfl, hc⟩
  have hledgers : ∀ i x, (d.accept k w c event).Ledgers i x ↔ d.Ledgers i x := fun i x => by
    rw [Ledgers, ledger_accept, ← Ledgers]
  have hchunks : ∀ i, (d.accept k w c event).chunksOf i = d.chunksOf i := fun i => by
    rw [chunksOf, ledger_accept, ← chunksOf]
  have hmem : ∀ {x e}, e ∈ ((d.accept k w c event).chunk x).events →
      e ∈ (d.chunk x).events ∨ (x = c ∧ e = event) := mem_accept h.posted.owned hw hc hfull
  refine ⟨h.posted.accept hw hs hc hfull event, h.home.samePlaces (.accept d k w c event),
    ?_, ?_, ?_, ?_⟩
  · intro i x hi hin
    rw [hledgers] at hin
    by_cases hx : x = c
    · -- the chunk is the writer's, so all it holds is of the writer's thread
      subst hx
      have hik : i = k := h.posted.own w k s.thread x i hseat hin
      subst hik
      refine ⟨s.thread, List.mem_of_getElem? (h.home.seat hseat), ?_⟩
      intro e he
      rcases hmem he with he | ⟨-, rfl⟩
      · exact h.signed w i s.thread x hi hseat e he
      · exact hthread
    · rw [chunk_accept_of_ne hx]
      exact h.alone i x hi hin
  · intro v i t x hi hv e he
    rw [Posted.seat_accept] at hv
    rcases hmem he with he | ⟨rfl, rfl⟩
    · exact h.signed v i t x hi hv e he
    · obtain rfl := h.posted.owned.seat_unique hv hseat
      obtain ⟨-, rfl, -⟩ := hv.unique hseat
      exact hthread
  · intro i x hi hopen hentry
    rw [collector_accept] at hopen
    rw [ledger_accept] at hentry
    obtain ⟨v, t, hv⟩ := h.held i x hi hopen hentry
    exact ⟨v, t, Posted.seat_accept.mpr hv⟩
  · intro v i t x y hi hv hlater e he
    rw [Posted.seat_accept] at hv
    rw [hchunks] at hlater
    rcases hmem he with he | ⟨rfl, rfl⟩
    · exact h.latest v i t x y hi hv hlater e he
    · have hin : d.Ledgers i y := mem_chunksOf.mp (hlater.subset (by simp))
      obtain rfl := h.posted.own w k s.thread y i hseat hin
      -- a chunk comes once in a ledger, so who sits before it is another writer
      have hne : v ≠ w := by
        rintro rfl
        obtain ⟨-, -, rfl⟩ := hv.unique hseat
        have hnodup := hlater.nodup (nodup_ledger h.posted.owned.ledgered_le i)
        exact absurd hnodup (by simp)
      rw [hthread]
      exact (h.home.thread_ne hE hseat hv hne).symm

/-- A new session has nothing to keep in order. -/
theorem newCollector (h : Filed E F d) (o : Options) : Filed E F (d.newCollector o).2 := by
  have hstill := Still.newCollector d o
  exact h.quiet (h.posted.newCollector o)
    (.of_same hstill.ledger hstill.closed (fun _ _ _ _ => Iff.rfl) fun _ => rfl)
    h.home fun _ hp => hp

/-- A new writer sits nowhere. -/
theorem newWriter (h : Filed E F d) (hE : E.length = d.writers.size)
    (hk : k < d.collectors.size) (thread : Int) (name : Option String) :
    Filed (E ++ [(k, thread)]) F (d.newWriter k thread name).2 := by
  have hposted := h.posted.newWriter hk thread name
  obtain ⟨d₁, hagree, heq⟩ := newWriter_eq d k thread name
  rw [heq] at hposted ⊢
  have h₁ := h.agree hagree
  have hlast : d₁.writers.size = E.length := by rw [hagree.sameWriters, hE]
  have hnone : d₁.writer? d₁.writers.size = none := by
    simp [writer?]
  refine h₁.quiet hposted (.of_same (fun _ => rfl) (fun _ => id) ?_ fun _ => rfl)
    ?_ fun p hp => List.mem_append_left _ hp
  · intro v i t c
    unfold Seat
    by_cases hv : v = d₁.writers.size
    · rw [hv, writer?_enlist, hnone]
      simp
    · rw [writer?_enlist_of_ne hv]
  · intro v r i hv hi
    by_cases hnew : v = d₁.writers.size
    · rw [hnew, writer?_enlist, Option.some.injEq] at hv
      subst hv
      rw [hnew, hlast, List.getElem?_concat_length, Option.some.inj hi]
    · rw [writer?_enlist_of_ne hnew] at hv
      have hold := h₁.home v r i hv hi
      rw [List.getElem?_append_left (List.getElem?_eq_some_iff.mp hold).1, hold]

/-- What is not frozen stays in order. -/
theorem freeze (h : Filed E F d) (k : CollectorId) : Filed E (k :: F) (d.freeze k).2 := by
  obtain ⟨-, hfrozen⟩ := freeze_spec d k
  have hout : ∀ j, j ∉ k :: F → j ≠ k ∧ j ∉ F := fun j hj => by simpa using hj
  have hevents : ∀ j ≠ k, ∀ c, d.Ledgers j c → (d.freeze k).2.chunk c = d.chunk c := by
    intro j hj c hin
    exact hfrozen.chunk j c (by rwa [Ledgers, hfrozen.others j hj])
  refine ⟨h.posted.freeze k, h.home.samePlaces (.of_staff (sameStaff_freeze d k)),
    ?_, ?_, ?_, ?_⟩
  · intro j c hj hin
    obtain ⟨hjk, hjF⟩ := hout j hj
    rw [Ledgers, hfrozen.others j hjk] at hin
    rw [hevents j hjk c hin]
    exact h.alone j c hjF hin
  · intro w j t c hj hw
    obtain ⟨hjk, hjF⟩ := hout j hj
    rw [seat_freeze] at hw
    rw [hevents j hjk c (ledgers_of_mem (h.posted.seated w j t c hw hjF))]
    exact h.signed w j t c hjF hw
  · intro j c hj hopen hmem
    obtain ⟨hjk, hjF⟩ := hout j hj
    rw [hfrozen.others j hjk] at hopen hmem
    obtain ⟨w, t, hw⟩ := h.held j c hjF hopen hmem
    exact ⟨w, t, (seat_freeze d k).mpr hw⟩
  · intro w j t c x hj hw hlater
    obtain ⟨hjk, hjF⟩ := hout j hj
    rw [chunksOf, hfrozen.others j hjk] at hlater
    have hin : d.Ledgers j x := mem_chunksOf.mp (hlater.subset (by simp))
    rw [hevents j hjk x hin]
    exact h.latest w j t c x hjF ((seat_freeze d k).mp hw) hlater

/-! ## What an eviction takes -/

/-- **Before the oldest idle chunk nothing is of its thread**: each chunk
before it has its writer, behind whom no event is of that writer's thread. -/
theorem apart_of_evicted (h : Filed E F d) {pre post : List LedgerEntry}
    (hledger : (d.collector k).ledger = pre ++ ⟨c, false⟩ :: post)
    (hpre : ∀ entry ∈ pre, entry.active = true) (hopen : (d.collector k).closed = false)
    (hk : k ∉ F) {e : Event} (he : e ∈ (d.chunk c).events) {entry : LedgerEntry}
    (hentry : entry ∈ pre) {e' : Event} (he' : e' ∈ (d.chunk entry.chunk).events) :
    e'.thread ≠ e.thread := by
  obtain ⟨y, active⟩ := entry
  obtain rfl : active = true := hpre _ hentry
  have hmem : ⟨y, true⟩ ∈ (d.collector k).ledger := by
    rw [hledger]
    exact List.mem_append_left _ hentry
  -- the entry before it is active, so a writer sits there
  obtain ⟨w, t, hw⟩ := h.held k y hk hopen hmem
  have hbefore : [y].Sublist (pre.map LedgerEntry.chunk) :=
    List.singleton_sublist.mpr (List.mem_map_of_mem hentry)
  have hlater : [y, c].Sublist (d.chunksOf k) := by
    rw [chunksOf, hledger, List.map_append, List.map_cons]
    exact hbefore.append (List.singleton_sublist.mpr List.mem_cons_self)
  rw [h.signed w k t y hk hw e' he']
  exact (h.latest w k t y c hk hw hlater e he).symm

/-- Behind a writer's chunk no event is of its thread, entry by entry. -/
theorem apart_of_seat (h : Filed E F d) (hw : Seat d w k t c) (hk : k ∉ F)
    {pre post : List LedgerEntry} {active : Bool}
    (hledger : (d.collector k).ledger = pre ++ ⟨c, active⟩ :: post) {entry : LedgerEntry}
    (hentry : entry ∈ post) : ∀ e ∈ (d.chunk entry.chunk).events, e.thread ≠ t := by
  have hlater : [c, entry.chunk].Sublist (d.chunksOf k) := by
    rw [chunksOf, hledger, List.map_append, List.map_cons]
    exact ((List.singleton_sublist.mpr (List.mem_map_of_mem hentry)).cons_cons c).trans
      (List.sublist_append_right _ _)
  exact h.latest w k t c entry.chunk hk hw hlater

end Filed

end Depot

end EventTrace
