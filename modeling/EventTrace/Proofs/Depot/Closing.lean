import EventTrace.Proofs.Depot.Feeding
import EventTrace.Proofs.Depot.Unpressed
/-!
# Depot — a closed session is settled

Nothing that writers do after a session is closed makes a difference to it,
its own late writers included, who still hold chunks of its ledger and give
them back to the depot: no event is written or admitted and no chunk rented,
what was counted stays, and the session is copied out as it would have been
when it closed (`Settled`). A session that stops at a cap has lost no chunk
and at most the one event that closed it (`Spent`).
-/

namespace EventTrace

open Depot

/-- A collector without its register of writers and threads: its options,
counts, losses and flag, its ledger, and whether it is closed. -/
def Collector.books (s : Collector) : Collector := { s with writers := [], threadNames := ∅ }

namespace Depot

variable {d d' e : Depot} {c : ChunkId} {k j : CollectorId} {w : WriterId} {s : Writer}
  {F : List CollectorId}

/-! ## What a closed session holds -/

/-- No move opens a session. -/
theorem Move.closed (hm : Move d d') (hclosed : (d.collector k).closed = true) :
    (d'.collector k).closed = true := by
  cases hm with
  | turn j ht =>
    cases ht with
    | keep hagree => rw [hagree.closed, hclosed]
    | close => exact (unpressed_close d j).closed k hclosed
    | evict _ hevict => rw [closed_evictOldest? hevict, hclosed]
  | hold => rw [hold_closed, hclosed]
  | letGo => rw [closed_letGo, hclosed]
  | leave => exact hclosed
  | vacate => exact hclosed

/-- **A move leaves a closed session what it holds**: only open sessions give
chunks up or enter them. -/
theorem Move.contents_of_closed (hm : Move d d') (hclosed : (d.collector k).closed = true) :
    d'.contents k = d.contents k := by
  have hother : ∀ {i}, (d.collector i).closed = false → k ≠ i := by
    rintro i hopen rfl
    exact absurd (hclosed.symm.trans hopen) (by simp)
  cases hm with
  | turn j ht =>
    cases ht with
    | keep hagree => exact hagree.toAlike.contents k
    | close => exact (same_close d j k).contents
    | evict hopen hevict => exact (same_evict hevict (hother hopen)).contents
  | @hold w _ j _ _ _ hopen _ =>
    refine contents_congr (congrArg _ ?_) fun c _ => take_events d c
    exact congrArg Collector.ledger (collector_enterChunk_of_ne (hother hopen))
  | letGo => exact (same_letGo d _ _ k).contents
  | leave => rfl
  | vacate => rfl

theorem Moves.contents_of_closed (hm : Moves d d') (hclosed : (d.collector k).closed = true) :
    d'.contents k = d.contents k ∧ (d'.collector k).closed = true := by
  induction hm with
  | refl => exact ⟨rfl, hclosed⟩
  | tail _ hm ih => exact ⟨(hm.contents_of_closed ih.2).trans ih.1, hm.closed ih.2⟩

/-- **A write leaves a closed session what it holds**, whoever writes: an
accepted event goes to a chunk of an open session, and to no other's. -/
theorem Posted.contents_write (h : Posted F d) (hclosed : (d.collector k).closed = true)
    (w : WriterId) (em : Emission) (now : Reading) :
    (d.write w em now).2.contents k = d.contents k := by
  have hscreened : ∀ screen, (d.rescreen w screen).contents k = d.contents k := fun screen =>
    (alike_rescreen d w screen).contents k
  have hends := h.owned.writeEnds w em now
  revert hends
  generalize d.write w em now = r
  intro hends
  cases hends with
  | closed _ hmoves => exact (hmoves.contents_of_closed hclosed).1
  | filtered => exact hscreened _
  | refused _ _ _ _ _ hbefore hrefuses hafter =>
    obtain ⟨hcontents, hclosed₁⟩ := hbefore.contents_of_closed (k := k) hclosed
    have hclosed₂ := (hrefuses.closed k).trans hclosed₁
    exact (((hafter.contents_of_closed hclosed₂).1.trans (hrefuses.contents k)).trans
      hcontents).trans (hscreened _)
  | @written j s screen c d₁ _ _ hw hs _ hscreen hbefore hw₁ _ hopen hagree _ =>
    obtain ⟨hcontents, hclosed₁⟩ := hbefore.contents_of_closed (k := k) hclosed
    have h₁ := (hscreen ▸ h.rescreen hw em now.arrival : Posted F (d.rescreen w screen)).moves
      hbefore
    have hapart : ¬ d₁.Ledgers k c := by
      intro hin
      obtain rfl := h₁.own w j s.thread c k ⟨_, hw₁, hs, rfl, rfl⟩ hin
      exact absurd (hclosed₁.symm.trans hopen) (by simp)
    exact (((hagree.toAlike.contents k).trans (contents_accept_of_not_ledgers hapart j w _)).trans
      hcontents).trans (hscreened _)

/-! ## What a closed session has on its books -/

/-- Nothing that a session holds or has counted is touched. -/
structure Undisturbed (k : CollectorId) (d d' : Depot) : Prop where
  books : (d'.collector k).books = (d.collector k).books
  contents : d'.contents k = d.contents k

theorem Undisturbed.trans (h : Undisturbed k d d') (h' : Undisturbed k d' e) :
    Undisturbed k d e where
  books := h'.books.trans h.books
  contents := h'.contents.trans h.contents

theorem Undisturbed.closed (h : Undisturbed k d d') :
    (d'.collector k).closed = (d.collector k).closed :=
  (congrArg Collector.closed h.books : _)

/-- What a closed session takes back goes to the depot, and is on no books. -/
theorem collectors_letGo_of_closed (hclosed : (d.collector k).closed = true) :
    (d.letGo w k).collectors = d.collectors := by
  unfold letGo
  split
  · rfl
  · next c _ =>
    have hrelease : ∀ f : Writer → Writer, (d.modifyWriter w f).releaseChunk k c =
        ((d.modifyWriter w f).giveBack c).2 := fun _ => if_pos hclosed
    rw [hrelease, giveBack_collectors]
    rfl

theorem collectors_detach_of_closed (hw : d.writer? w = some s) (hs : s.collector = some k)
    (hclosed : (d.collector k).closed = true) : (d.detach w).collectors = d.collectors := by
  simp only [detach, hw, hs]
  exact collectors_letGo_of_closed hclosed

theorem collectors_dropWriter_of_closed (hw : d.writer? w = some s) (hs : s.collector = some k)
    (hclosed : (d.collector k).closed = true) : (d.dropWriter w).collectors = d.collectors := by
  simp only [dropWriter, hw, hs]
  exact collectors_letGo_of_closed hclosed

/-- A change to a session's register is on no books. -/
theorem books_modifyCollector {f : Collector → Collector} (hf : ∀ s, (f s).books = s.books)
    (j k : CollectorId) : ((d.modifyCollector j f).collector k).books = (d.collector k).books :=
  congr_modifyCollector Collector.books hf k

theorem books_newWriter (d : Depot) (j : CollectorId) (thread : Int) (name : Option String)
    (k : CollectorId) :
    ((d.newWriter j thread name).2.collector k).books = (d.collector k).books := by
  have hregistered : ((d.newLink.2.registerLink j d.newLink.1).collector k).books =
      (d.collector k).books := by
    refine books_modifyCollector (d := d.newLink.2) (fun _ => ?_) j k
    rfl
  cases name with
  | none => exact hregistered
  | some name =>
    refine Eq.trans ?_ hregistered
    show (((d.newLink.2.registerLink j d.newLink.1).nameThread j thread name).collector k).books = _
    unfold nameThread
    split
    · rfl
    · refine books_modifyCollector (fun _ => ?_) j k
      rfl

theorem books_closeWriters (d : Depot) (j k : CollectorId) :
    ((d.closeWriters j).2.collector k).books = (d.collector k).books := by
  obtain ⟨flags, heq⟩ := foldl_closeLink (d.collector j).writers d
  unfold closeWriters
  dsimp only
  rw [heq]
  refine books_modifyCollector (d := { d with links := flags }) (fun _ => ?_) j k
  rfl

theorem books_of_collectors (h : d'.collectors = d.collectors) (k : CollectorId) :
    (d'.collector k).books = (d.collector k).books := by
  rw [collector, h, collector]

theorem books_of_confined {R : Reason → Prop} (h : Confined j R d d') (hj : j ≠ k) :
    (d'.collector k).books = (d.collector k).books := by
  rw [h.others k (Ne.symm hj)]

theorem Posted.books_write (h : Posted F d) (hclosed : (d.collector k).closed = true)
    (w : WriterId) (em : Emission) (now : Reading) :
    ((d.write w em now).2.collector k).books = (d.collector k).books := by
  rcases session_cases d w with hnone | ⟨s, j, hw, hs⟩
  · exact books_of_collectors (write_of_none hnone em now).2.1 k
  · by_cases hj : j = k
    · subst hj
      rw [write_of_closed hw hs hclosed]
      exact books_of_collectors (collectors_detach_of_closed hw hs hclosed) j
    · exact books_of_confined (confined_write hw hs (h.attached w s j hw hs) em now) hj

theorem books_detach (hclosed : (d.collector k).closed = true) (w : WriterId) :
    ((d.detach w).collector k).books = (d.collector k).books := by
  rcases session_cases d w with hnone | ⟨s, j, hw, hs⟩
  · exact books_of_collectors (detach_of_none hnone).1 k
  · by_cases hj : j = k
    · subst hj
      exact books_of_collectors (collectors_detach_of_closed hw hs hclosed) j
    · exact books_of_confined (R := fun _ => False) (confined_detach hw hs) hj

theorem books_dropWriter (hclosed : (d.collector k).closed = true) (w : WriterId) :
    ((d.dropWriter w).collector k).books = (d.collector k).books := by
  rcases session_cases d w with hnone | ⟨s, j, hw, hs⟩
  · exact books_of_collectors (dropWriter_of_none hnone).1 k
  · by_cases hj : j = k
    · subst hj
      exact books_of_collectors (collectors_dropWriter_of_closed hw hs hclosed) j
    · exact books_of_confined (R := fun _ => False) (confined_dropWriter hw hs) hj

/-! ## Calls -/

/-- **No call but a freeze disturbs a closed session.** -/
theorem Posted.undisturbed (h : Posted F d) (hclosed : (d.collector k).closed = true) {call : Call}
    (hcall : call ≠ .freeze k) : Undisturbed k d (call.apply d) := by
  cases call with
  | newCollector o =>
    refine ⟨?_, contents_newCollector d o k⟩
    have hk : k ≠ d.collectors.size := by
      rintro rfl
      rw [collector_of_ge (Nat.le_refl _)] at hclosed
      exact absurd hclosed (by decide)
    rw [Call.apply, collector_newCollector_of_ne hk]
  | newWriter j thread name =>
    dsimp only [Call.apply]
    split
    · refine ⟨books_newWriter d j thread name k, ?_⟩
      obtain ⟨d₁, hagree, heq⟩ := newWriter_eq d j thread name
      rw [heq]
      exact hagree.toAlike.contents k
    · exact ⟨rfl, rfl⟩
  | write w em now => exact ⟨h.books_write hclosed w em now, h.contents_write hclosed w em now⟩
  | detach w =>
    exact ⟨books_detach hclosed w, ((moves_detach d w).contents_of_closed hclosed).1⟩
  | dropWriter w =>
    exact ⟨books_dropWriter hclosed w, ((moves_dropWriter d w).contents_of_closed hclosed).1⟩
  | close j =>
    refine ⟨?_, (same_close d j k).contents⟩
    rcases collector_modifyCollector_cases d j k _ with hsame | hchanged
    · rw [Call.apply, close, hsame]
    · rw [Call.apply, close, hchanged, ← hclosed]
  | closeWriters j =>
    exact ⟨books_closeWriters d j k, (agree_closeWriters d j).toAlike.contents k⟩
  | freeze j =>
    have hj : k ≠ j := by
      rintro rfl
      exact hcall rfl
    obtain ⟨-, hfrozen⟩ := freeze_spec d j
    exact ⟨congrArg Collector.books (hfrozen.others k hj), contents_freeze d hj⟩

/-- **A closed session is not disturbed**, in whatever order writers write,
leave and come. -/
theorem Posted.undisturbed_calls (h : Posted F d) (hclosed : (d.collector k).closed = true)
    {calls : List Call} (hcalls : .freeze k ∉ calls) :
    Undisturbed k d (calls.foldl Call.apply d) := by
  induction calls generalizing d F with
  | nil => exact ⟨rfl, rfl⟩
  | cons call calls ih =>
    rw [List.mem_cons, not_or] at hcalls
    have hfirst := h.undisturbed hclosed (Ne.symm hcalls.1)
    exact hfirst.trans (ih (h.call call) (hfirst.closed.trans hclosed) hcalls.2)

/-- A session is settled: nothing more is written, rented or admitted, its
books are what they were, and it is copied out as it would have been. -/
structure Settled (k : CollectorId) (d d' : Depot) : Prop where
  refuses : ∀ w em now, (∀ j, d'.session? w = some j → j = k) → (d'.write w em now).1 = false
  rent : (d'.rent k).1 = none
  admission : (d'.admitEvent k).1 = false
  books : (d'.collector k).books = (d.collector k).books
  frozen : (d'.freeze k).1 = (d.freeze k).1

theorem Undisturbed.settled (h : Undisturbed k d d') (hclosed : (d.collector k).closed = true) :
    Settled k d d' where
  refuses w em now hw := by
    have hclosed' := h.closed.trans hclosed
    rcases session_cases d' w with hnone | ⟨s, j, hs, hj⟩
    · exact (write_of_none hnone em now).1
    · obtain rfl : j = k := hw j (by simp [session?, hs, hj])
      rw [write_of_closed hs hj hclosed']
  rent := by simp [Depot.rent, rentChunk, h.closed.trans hclosed]
  admission := by rw [admitEvent_of_closed (h.closed.trans hclosed)]
  books := h.books
  frozen := by rw [(freeze_spec d' k).1, (freeze_spec d k).1, h.contents]

end Depot

/-! ## Sessions that stop at a cap -/

/-- What decides how a session goes on at a cap, and what it cost so far. -/
def Collector.stance (s : Collector) : Options × Bool × Nat × Nat :=
  (s.options, s.closed, s.losses.droppedEvents, s.losses.droppedChunks)

/-- A session that stops at a cap has lost no chunk, and no event while it is
open; the event that closed it is the only one. -/
def Collector.Spent (s : Collector) : Prop :=
  s.options.policy = .stopSession →
    s.losses.droppedChunks = 0 ∧ s.losses.droppedEvents ≤ if s.closed then 1 else 0

/-- A run in which no loss of a session is made by hand: no event is counted
as dropped and no chunk is given up but in the course of a write, a rental or
an admission. -/
def Untallied (ops : List Op) (k : CollectorId) : Prop :=
  .evict k ∉ ops ∧ ∀ reason, .recordDropped k reason ∉ ops

theorem Collector.Spent.of_whole {s : Collector} (h : s.stance.2.2 = (0, 0)) : s.Spent := by
  intro _
  simp only [Collector.stance, Prod.mk.injEq] at h
  rw [h.1, h.2]
  exact ⟨rfl, Nat.zero_le _⟩

theorem Collector.Spent.congr {s s' : Collector} (h : s.Spent) (heq : s'.stance = s.stance) :
    s'.Spent := by
  simp only [Collector.stance, Prod.mk.injEq] at heq
  obtain ⟨hoptions, hclosed, hevents, hchunks⟩ := heq
  rwa [Collector.Spent, hoptions, hclosed, hevents, hchunks]

namespace Depot

variable {d d' e : Depot} {k j : CollectorId} {w : WriterId} {s : Writer} {F : List CollectorId}

theorem stance_signal (d : Depot) (j : CollectorId) (reason : Reason) (k : CollectorId) :
    ((d.signal j reason).collector k).stance = (d.collector k).stance := by
  unfold signal
  dsimp only
  split
  · rfl
  · refine congr_modifyCollector Collector.stance (fun _ => ?_) k
    rfl

theorem stance_recordRateLimited (d : Depot) (j k : CollectorId) :
    ((d.recordRateLimited j).collector k).stance = (d.collector k).stance := by
  refine (stance_signal _ j .rateLimit k).trans ?_
  refine congr_modifyCollector Collector.stance (fun _ => ?_) k
  rfl

theorem stance_enterChunk (d : Depot) (j k : CollectorId) :
    ((d.enterChunk j).2.collector k).stance = (d.collector k).stance := by
  rw [collector_enterChunk]
  rfl

theorem stance_letGo (d : Depot) (w : WriterId) (j k : CollectorId) :
    ((d.letGo w j).collector k).stance = (d.collector k).stance := by
  have hlosses := (unpressed_letGo d w j).losses k
  simp only [Losses.pressing, Losses.mk.injEq] at hlosses
  rw [Collector.stance, options_letGo, closed_letGo, hlosses.1, hlosses.2.1, Collector.stance]

/-- Closing changes nothing else about a session. -/
theorem stance_close (hk : k < d.collectors.size) :
    ((d.close k).collector k).stance =
      ((d.collector k).options, true, (d.collector k).stance.2.2) := by
  rw [close, collector_modifyCollector hk]
  rfl

/-- An event lost by hand is another session's affair. -/
theorem stance_recordDropped_of_ne (hj : k ≠ j) (reason : Reason) :
    ((d.recordDropped j reason).collector k).stance = (d.collector k).stance := by
  rw [recordDropped, stance_signal, collector_modifyCollector_of_ne hj]

theorem stance_recordDropped (hk : k < d.collectors.size) (reason : Reason) :
    ((d.recordDropped k reason).collector k).stance = ((d.collector k).options,
      (d.collector k).closed, (d.collector k).losses.droppedEvents + 1,
      (d.collector k).losses.droppedChunks) := by
  rw [recordDropped, stance_signal, collector_modifyCollector hk]
  rfl

/-- **A session that stops is closed by a rental it refuses**, and loses
nothing by it. -/
theorem rentChunk_stop (hstop : (d.collector k).options.policy = .stopSession)
    (hopen : (d.collector k).closed = false) :
    ((d.rentChunk k).2.collector k).stance =
      ((d.collector k).options, (d.rentChunk k).1.isNone, (d.collector k).stance.2.2) := by
  unfold rentChunk
  rw [if_neg (by simp [hopen])]
  split
  · dsimp only
    rw [stance_enterChunk, Collector.stance, hopen]
    rfl
  · next hfull =>
    rw [Bool.not_eq_true] at hfull
    have hk : k < d.collectors.size := lt_size_of_atCap .maxTotalChunks hfull
    have hsignal := (confined_signal hk .maxTotalChunks).1
    rw [rentAtCap, hstop]
    dsimp only
    rw [stance_close (hsignal.size.symm ▸ hk), stance_signal, hsignal.options]
    rfl

/-- **A session that stops is closed by an event it does not admit**, and
loses only that. -/
theorem admitEvent_stop (hstop : (d.collector k).options.policy = .stopSession)
    (hopen : (d.collector k).closed = false) :
    ((d.admitEvent k).2.collector k).stance = ((d.collector k).options, !(d.admitEvent k).1,
      (d.collector k).losses.droppedEvents + (if (d.admitEvent k).1 then 0 else 1),
      (d.collector k).losses.droppedChunks) := by
  unfold admitEvent
  dsimp only
  rw [if_neg (by simp [hopen])]
  split
  · refine (congr_modifyCollector (f := Collector.countEvent) Collector.stance (fun _ => rfl)
      k).trans ?_
    rw [Collector.stance, hopen]
    rfl
  · next hfull =>
    rw [Bool.not_eq_true] at hfull
    have hk : k < d.collectors.size := lt_size_of_atCap .maxTotalEvents hfull
    have hdropped := (confined_recordDropped hk .maxTotalEvents).1
    rw [hstop]
    dsimp only
    rw [stance_close (hdropped.size.symm ▸ hk), stance_recordDropped hk, hdropped.options]
    rfl

/-- What an admission leaves a session that had lost nothing. -/
theorem spent_admitEvent (hstop : (d.collector k).options.policy = .stopSession)
    (hopen : (d.collector k).closed = false) (hwhole : (d.collector k).stance.2.2 = (0, 0)) :
    ((d.admitEvent k).2.collector k).Spent := by
  have hadmitted := admitEvent_stop hstop hopen
  simp only [Collector.stance, Prod.mk.injEq] at hadmitted hwhole
  obtain ⟨-, hclosed, hevents, hchunks⟩ := hadmitted
  intro _
  rw [hclosed, hevents, hchunks, hwhole.1, hwhole.2]
  cases (d.admitEvent k).1 with
  | false => exact ⟨rfl, Nat.le_refl 1⟩
  | true => exact ⟨rfl, Nat.zero_le _⟩

/-- Seeing to room closes a session that stops if there is none, and costs it
nothing. -/
theorem holdRoom_stop (hstop : (d.collector k).options.policy = .stopSession)
    (hopen : (d.collector k).closed = false) :
    ((d.holdRoom w k).2.collector k).stance =
      ((d.collector k).options, !(d.holdRoom w k).1, (d.collector k).stance.2.2) := by
  have hrenewed : ((d.renewChunk w k).2.collector k).stance =
      ((d.collector k).options, !(d.renewChunk w k).1, (d.collector k).stance.2.2) := by
    have hletGo := stance_letGo d w k k
    have hoptions := options_letGo d w k k
    have hrented := rentChunk_stop (d := d.letGo w k) (by rwa [hoptions])
      (by rwa [closed_letGo])
    rw [hletGo, hoptions] at hrented
    unfold renewChunk
    split
    · next hrent =>
      rwa [hrent] at hrented
    · next hrent =>
      rwa [hrent] at hrented
  unfold holdRoom
  split
  · split
    · exact hrenewed
    · rw [Collector.stance, hopen]
      rfl
  · exact hrenewed

/-- A closed session has no room to offer, and loses nothing by it. -/
theorem stance_holdRoom_of_closed (hclosed : (d.collector k).closed = true) :
    ((d.holdRoom w k).2.collector k).stance = (d.collector k).stance := by
  have hrenewed : ((d.renewChunk w k).2.collector k).stance = (d.collector k).stance := by
    have hshut : (d.letGo w k).rentChunk k = (none, d.letGo w k) :=
      if_pos (by rwa [closed_letGo])
    rw [renewChunk, hshut]
    exact stance_letGo d w k k
  unfold holdRoom
  split
  · split
    · exact hrenewed
    · rfl
  · exact hrenewed

/-- **Placing an event costs a session that stops nothing but the event**,
and only if that closes it. -/
theorem place_stop (hstop : (d.collector k).options.policy = .stopSession)
    (hopen : (d.collector k).closed = false) (hwhole : (d.collector k).stance.2.2 = (0, 0))
    (em : Emission) (stamp : Int) : ((d.place w k em stamp).2.collector k).Spent := by
  have hheld := holdRoom_stop (w := w) hstop hopen
  unfold place
  cases hroom : d.holdRoom w k with
  | mk ok d₁ =>
    rw [hroom, hwhole] at hheld
    simp only [Collector.stance, Prod.mk.injEq] at hheld
    obtain ⟨hoptions, hclosed, hevents, hchunks⟩ := hheld
    cases ok with
    | false =>
      have hup := flagged_of_holdRoom_false hopen hroom
      have hdropped := stance_recordDropped (lt_size_of_flagged hup) .maxTotalChunks
      simp only [Collector.stance, Prod.mk.injEq] at hdropped
      obtain ⟨-, hclosed', hevents', hchunks'⟩ := hdropped
      intro _
      dsimp only
      rw [hclosed', hevents', hchunks', hclosed, hevents, hchunks]
      exact ⟨rfl, Nat.le_refl 1⟩
    | true =>
      have hadmitted := spent_admitEvent (d := d₁) (by rwa [hoptions]) hclosed
        (Prod.ext hevents hchunks)
      dsimp only
      cases hoffer : d₁.admitEvent k with
      | mk ok d₂ =>
        rw [hoffer] at hadmitted
        cases ok with
        | false => exact hadmitted
        | true =>
          dsimp only
          rwa [collector_append]

theorem stance_detach (hw : d.writer? w = some s) (hs : s.collector = some j) (k : CollectorId) :
    ((d.detach w).collector k).stance = (d.collector k).stance := by
  simp only [detach, hw, hs]
  exact stance_letGo _ w j k

/-- **A write costs a session that stops nothing but the event that closes
it.** -/
theorem write_stop (hw : d.writer? w = some s) (hs : s.collector = some k)
    (hstop : (d.collector k).options.policy = .stopSession)
    (hopen : (d.collector k).closed = false) (hwhole : (d.collector k).stance.2.2 = (0, 0))
    (em : Emission) (now : Reading) : ((d.write w em now).2.collector k).Spent := by
  have hspent : (d.collector k).Spent := .of_whole hwhole
  rcases reaches_cases hw hs with hreach | hreach
  · rw [write_of_not_reaches hreach]
    exact hspent.congr (stance_detach hw hs k)
  · rw [write_of_reaches hreach hw]
    generalize s.screen.screen em.id em.kind now.arrival = screened
    obtain ⟨verdict, screen⟩ := screened
    cases verdict with
    | filtered => exact hspent
    | sampledOut =>
      refine hspent.congr (congr_modifyCollector (d := d.rescreen w screen) Collector.stance
        (fun _ => ?_) k)
      rfl
    | rateLimited =>
      exact hspent.congr (stance_recordRateLimited (d.rescreen w screen) k k)
    | passed => exact place_stop (d := d.rescreen w screen) hstop hopen hwhole em now.stamp

/-! ### Operations -/

/-- What meets no limit costs nothing. -/
theorem Unpressed.spent (h : Unpressed d d') (hspent : (d.collector k).Spent) :
    (d'.collector k).Spent := by
  have hlosses := h.losses k
  simp only [Losses.pressing, Losses.mk.injEq] at hlosses
  obtain ⟨hevents, hchunks, -⟩ := hlosses
  intro hstop
  rw [hevents, hchunks]
  rcases Nat.lt_or_ge k d.collectors.size with hk | hk
  · rw [h.options k hk] at hstop
    obtain ⟨hnone, hone⟩ := hspent hstop
    refine ⟨hnone, hone.trans ?_⟩
    cases hclosed : (d.collector k).closed with
    | false => simp
    | true => rw [h.closed k hclosed]
  · -- a session that comes with the operation has lost nothing yet
    rw [collector_of_ge hk]
    exact ⟨rfl, Nat.zero_le _⟩

/-- It is enough to look at a session that stops and is open still. -/
theorem Confined.spent {R : Reason → Prop} (h : Confined k R d d')
    (hspent : (d.collector k).Spent)
    (hclosed : (d.collector k).closed = true → (d'.collector k).stance = (d.collector k).stance)
    (hopen : (d.collector k).options.policy = .stopSession → (d.collector k).closed = false →
      (d.collector k).stance.2.2 = (0, 0) → (d'.collector k).Spent) : (d'.collector k).Spent := by
  intro hstop
  cases hshut : (d.collector k).closed with
  | true => exact hspent.congr (hclosed hshut) hstop
  | false =>
    have hstop₀ : (d.collector k).options.policy = .stopSession := by rwa [← h.options]
    obtain ⟨hnone, hone⟩ := hspent hstop₀
    rw [hshut] at hone
    exact hopen hstop₀ hshut (Prod.ext (Nat.le_zero.mp hone) hnone) hstop

/-- **No operation makes a session that stops lose more** than the event that
closes it. -/
theorem Posted.spent_op (h : Posted F d) (hspent : (d.collector k).Spent) {o : Op}
    (hevict : o ≠ .evict k) (hdropped : ∀ reason, o ≠ .recordDropped k reason) :
    ((o.apply d).collector k).Spent := by
  have hsame : ∀ {e : Depot}, e.collector k = d.collector k → (e.collector k).Spent := fun heq =>
    heq ▸ hspent
  cases ho : o.presses with
  | false => exact (unpressed_op ho d).spent hspent
  | true =>
    cases o with
    | call call =>
      cases call with
      | write w em now =>
        rcases session_cases d w with hnone | ⟨s, j, hw, hs⟩
        · refine hsame ?_
          rw [Op.apply, Call.apply, collector, (write_of_none hnone em now).2.1, collector]
        · have hwrite := confined_write hw hs (h.attached w s j hw hs) em now
          by_cases hj : j = k
          · subst hj
            refine hwrite.spent hspent (fun hclosed => ?_) fun hstop hopen hwhole =>
              write_stop hw hs hstop hopen hwhole em now
            rw [write_of_closed hw hs hclosed]
            exact stance_detach hw hs j
          · exact hsame (hwrite.others k (Ne.symm hj))
      | _ => exact absurd ho (by simp [Op.presses])
    | rent j =>
      by_cases hj : j = k
      · subst hj
        have hrented : (d.rent j).2.collector j = (d.rentChunk j).2.collector j := by
          rw [collector, (rent_spec d j).1, collector]
        refine (confined_rent d j).spent hspent (fun hclosed => ?_) fun hstop hopen hwhole => ?_
        · rw [hrented, rentChunk, if_pos hclosed]
        · refine hrented ▸ ?_
          exact .of_whole ((congrArg (·.2.2) (rentChunk_stop hstop hopen)).trans hwhole)
      · exact hsame ((confined_rent d j).others k (Ne.symm hj))
    | offerEvent j =>
      by_cases hj : j = k
      · subst hj
        refine (confined_admitEvent d j).spent hspent (fun hclosed => ?_)
          fun hstop hopen hwhole => ?_
        · rw [admitEvent_of_closed hclosed]
        · exact spent_admitEvent hstop hopen hwhole
      · exact hsame ((confined_admitEvent d j).others k (Ne.symm hj))
    | recordDropped j reason =>
      have hj : k ≠ j := by
        rintro rfl
        exact hdropped reason rfl
      exact hspent.congr (stance_recordDropped_of_ne hj reason)
    | recordRateLimited j => exact hspent.congr (stance_recordRateLimited d j k)
    | holdRoom w =>
      dsimp only [Op.apply]
      split
      · next j _ =>
        by_cases hj : j = k
        · subst hj
          refine (confined_holdRoom d w j).spent hspent (fun hclosed => ?_)
            fun hstop hopen hwhole => ?_
          · exact stance_holdRoom_of_closed hclosed
          · exact .of_whole ((congrArg (·.2.2) (holdRoom_stop hstop hopen)).trans hwhole)
        · exact hsame ((confined_holdRoom d w j).others k (Ne.symm hj))
      · exact hspent
    | evict j =>
      have hj : k ≠ j := by
        rintro rfl
        exact hevict rfl
      dsimp only [Op.apply]
      cases hgiven : d.evictOldest? j with
      | none => exact hspent
      | some d₁ => exact hsame ((confined_evict (R := fun _ => False) hgiven).others k hj)
    | _ => exact absurd ho (by simp [Op.presses])

/-- What was lost stays lost, and no more. -/
theorem Settled.losses {k : CollectorId} {d d' : Depot} (h : Settled k d d') :
    (d'.collector k).losses = (d.collector k).losses :=
  (congrArg Collector.losses h.books : _)

end Depot

/-! ## Runs -/

/-- **A session that stops at a cap loses no chunk**, and no event but the one
that closes it. -/
theorem spent_runOps (capacity : Nat) {ops : List Op} {k : CollectorId} (h : Untallied ops k) :
    ((runOps capacity ops).collector k).Spent := by
  induction ops using List.reverseRecOn with
  | nil =>
    refine .of_whole ?_
    rw [runOps, List.foldl_nil, collector_of_ge (Nat.zero_le k)]
    rfl
  | append_singleton ops o ih =>
    simp only [Untallied, List.mem_append, List.mem_singleton, not_or, forall_and] at h
    obtain ⟨F, G, hstocked⟩ := exists_stocked_runOps capacity ops
    rw [runOps_concat]
    exact hstocked.spent_op (ih ⟨h.1.1, h.2.1⟩) (Ne.symm h.1.2) fun reason => Ne.symm (h.2.2 reason)

/-- **Closing is final.** Once a session is closed, by whatever run, no
sequence of calls settles it otherwise: writers of any session may write,
leave and come, and still no write to it is done, nothing is rented or
admitted, its counts, its losses and its flag are what they were, and it is
copied out as it would have been. A session that stops at a cap, where no loss
is counted by hand, has lost no chunk, no event while it is open, and one
event at most. -/
theorem closing_final (capacity : Nat) (ops : List Op) (k : CollectorId) :
    let d := runOps capacity ops
    ((d.collector k).closed = true → ∀ calls : List Call, .freeze k ∉ calls →
      Settled k d (calls.foldl Call.apply d)) ∧
    (Untallied ops k → (d.collector k).options.policy = .stopSession →
      (d.collector k).losses.droppedChunks = 0 ∧
        (d.collector k).losses.droppedEvents ≤ if (d.collector k).closed then 1 else 0) := by
  intro d
  refine ⟨fun hclosed calls hcalls => ?_, fun huntallied => spent_runOps capacity huntallied⟩
  obtain ⟨F, G, hstocked⟩ := exists_stocked_runOps capacity ops
  exact (hstocked.undisturbed_calls hclosed hcalls).settled hclosed

/-- A session stops at its event cap, with two writers that hold chunks, next
to another session of the depot. -/
def stopping : List Op :=
  let e : Emission := { id := 7, kind := .instant }
  [.call (.newCollector { maxTotalEvents := 2, policy := .stopSession }),
    .call (.newCollector {}), .call (.newWriter 0 1 none), .call (.newWriter 0 2 none),
    .call (.newWriter 1 3 none), .call (.write 0 e ⟨1, 1⟩), .call (.write 1 e ⟨2, 2⟩),
    .call (.write 0 e ⟨3, 3⟩)]

/-- The late writers leave, one of them as it tries to write, and the other
session goes on over the same depot. -/
def afterwards : List Call :=
  let e : Emission := { id := 7, kind := .instant }
  [.write 1 e ⟨4, 4⟩, .dropWriter 0, .write 2 e ⟨5, 5⟩, .newWriter 0 4 none, .write 3 e ⟨6, 6⟩]

/-- The one event over the cap closed the session; what comes afterwards
leaves it its two events. -/
theorem closing_final_stopping :
    let d := runOps 1 stopping
    let d' := afterwards.foldl Call.apply d
    (d.collector 0).closed = true ∧ (d.collector 0).losses.droppedEvents = 1 ∧
      (d'.collector 0).losses.droppedEvents ≤ 1 ∧ (d'.collector 0).losses.droppedChunks = 0 ∧
      (d'.freeze 0).1.length = 2 ∧ (d'.collector 1).eventCount = 1 := by
  intro d d'
  have hclosed : (d.collector 0).closed = true := by decide
  have hafter : Call.freeze 0 ∉ afterwards := by simp [afterwards]
  have huntallied : Untallied stopping 0 := by simp [Untallied, stopping]
  obtain ⟨hfinal, hspent⟩ := closing_final 1 stopping 0
  have hsettled := hfinal hclosed afterwards hafter
  obtain ⟨hchunks, hevents⟩ := hspent huntallied (by decide)
  rw [hsettled.losses, hsettled.frozen]
  have hone : (d.collector 0).losses.droppedEvents = 1 := by decide
  have hlost := hevents.trans (Nat.le_of_eq (if_pos hclosed))
  exact ⟨hclosed, hone, hlost, hchunks, by decide, by decide⟩

end EventTrace
