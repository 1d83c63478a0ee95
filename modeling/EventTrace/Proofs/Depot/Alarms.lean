import EventTrace.Proofs.Depot.Slots
/-!
# Depot — one session at a time, and its alarm

A procedure of a session touches the record of no other session, and it sounds
the alarm of an overflow at most once: when it raises the session's flag, for
a reason that the procedure can have (`Confined`). At a cap that is the cap,
and only where it was reached (`confined_rentChunk`, `confined_admitEvent`);
for a whole write it is one of the two caps or the writer's rate
(`confined_write`).
-/

namespace EventTrace

/-- Whether a notice is of an overflow. -/
def Notice.isOverflow : Notice → Bool
  | .overflow .. => true
  | _ => false

/-- Whether a limit is a cap that a session has reached. -/
def Collector.AtCap (s : Collector) : Reason → Prop
  | .maxTotalChunks => s.hasChunkRoom = false
  | .maxTotalEvents => s.hasEventRoom = false
  | .rateLimit => False

namespace Depot

variable {d d' e : Depot} {c : ChunkId} {k j : CollectorId} {w : WriterId} {s : Writer}
  {R R' : Reason → Prop} {reason : Reason}

/-- The overflows on record, the first one first. -/
def alarms (d : Depot) : List Notice := d.journal.toList.filter Notice.isOverflow

/-- Whether a session has overflowed. -/
def flagged (d : Depot) (k : CollectorId) : Bool := (d.collector k).losses.overflowed

/-- What is told of an overflow of a session. -/
def alarm (d : Depot) (k : CollectorId) (reason : Reason) : Notice :=
  .overflow reason (d.collector k).options.policy (d.collector k).options.tellsOverflow

/-- Only a session that is there has overflowed. -/
theorem lt_size_of_flagged (h : d.flagged k = true) : k < d.collectors.size := by
  by_contra hge
  rw [flagged, collector_of_ge (Nat.le_of_not_lt hge)] at h
  exact absurd h (by decide)

theorem alarms_note {n : Notice} (hn : n.isOverflow = false) : (d.note n).alarms = d.alarms := by
  simp [alarms, note, hn]

theorem alarms_congr (h : d'.journal = d.journal) : d'.alarms = d.alarms := by
  rw [alarms, h, alarms]

/-! ## Affairs of one session -/

/-- What becomes of a session's flag: nothing, or it goes up, and the alarm is
sounded once, for one of some reasons. -/
inductive Rings (k : CollectorId) (R : Reason → Prop) (d d' : Depot) : Prop
  | quiet : d'.flagged k = d.flagged k → d'.alarms = d.alarms → Rings k R d d'
  | rung (reason : Reason) : R reason → d.flagged k = false → d'.flagged k = true →
      d'.alarms = d.alarms ++ [d.alarm k reason] → Rings k R d d'

/-- An affair of one session: no other session's record is touched, its own
keeps its options, and its flag goes up for one of some reasons only. -/
structure Confined (k : CollectorId) (R : Reason → Prop) (d d' : Depot) : Prop where
  size : d'.collectors.size = d.collectors.size
  others : ∀ j ≠ k, d'.collector j = d.collector j
  options : (d'.collector k).options = (d.collector k).options
  closed : (d.collector k).closed = true → (d'.collector k).closed = true
  rings : Rings k R d d'

namespace Confined

/-- An affair that leaves the flag and sounds no alarm. -/
theorem of_collectors (hcollectors : d'.collectors = d.collectors)
    (halarms : d'.alarms = d.alarms) : Confined k R d d' := by
  have hcollector : ∀ j, d'.collector j = d.collector j := by
    intro j
    rw [collector, hcollectors, collector]
  exact ⟨by rw [hcollectors], fun j _ => hcollector j, by rw [hcollector], fun h => by
    rwa [hcollector], .quiet (by rw [flagged, hcollector, flagged]) halarms⟩

theorem refl (k : CollectorId) (d : Depot) : Confined k R d d := of_collectors rfl rfl

theorem modifyCollector {f : Collector → Collector} (hoptions : ∀ s, (f s).options = s.options)
    (hclosed : ∀ s, s.closed = true → (f s).closed = true)
    (hflag : ∀ s, (f s).losses.overflowed = s.losses.overflowed) :
    Confined k R d (d.modifyCollector k f) where
  size := Array.size_modify
  others _ hj := collector_modifyCollector_of_ne hj
  options := congr_modifyCollector Collector.options hoptions k
  closed h := by
    rcases collector_modifyCollector_cases d k k f with hsame | hchanged
    · rwa [hsame]
    · rw [hchanged]
      exact hclosed _ h
  rings := .quiet (congr_modifyCollector (fun s => s.losses.overflowed) hflag k) rfl

theorem mono (h : Confined k R d d') (hR : ∀ reason, R reason → R' reason) :
    Confined k R' d d' where
  size := h.size
  others := h.others
  options := h.options
  closed := h.closed
  rings := by
    cases h.rings with
    | quiet hflag halarms => exact .quiet hflag halarms
    | rung reason hreason hdown hup halarms =>
      exact .rung reason (hR reason hreason) hdown hup halarms

theorem alarm_eq (h : Confined k R d d') (reason : Reason) :
    d'.alarm k reason = d.alarm k reason := by
  rw [alarm, alarm, h.options]

theorem flagged_mono (h : Confined k R d d') (hup : d.flagged k = true) : d'.flagged k = true := by
  cases h.rings with
  | quiet hflag _ => rw [hflag, hup]
  | rung _ _ _ hup' _ => exact hup'

/-- **One affair after another is one affair.** The second sounds the alarm
only if the first did not. -/
theorem trans (h : Confined k R d d') (h' : Confined k R' d' e)
    (hR : ∀ reason, d'.flagged k = false → R' reason → R reason) : Confined k R d e where
  size := h'.size.trans h.size
  others j hj := (h'.others j hj).trans (h.others j hj)
  options := h'.options.trans h.options
  closed hclosed := h'.closed (h.closed hclosed)
  rings := by
    cases h.rings with
    | quiet hflag halarms =>
      cases h'.rings with
      | quiet hflag' halarms' => exact .quiet (hflag'.trans hflag) (halarms'.trans halarms)
      | rung reason hreason hdown hup halarms' =>
        refine .rung reason (hR reason hdown hreason) (hflag ▸ hdown) hup ?_
        rw [halarms', halarms, h.alarm_eq]
    | rung reason hreason hdown hup halarms =>
      cases h'.rings with
      | quiet hflag' halarms' =>
        exact .rung reason hreason hdown (hflag'.trans hup) (halarms'.trans halarms)
      | rung _ _ hdown' _ _ => exact absurd (hup.symm.trans hdown') (by simp)

/-- Where the second sounds no alarm at all, any reason will do. -/
theorem then_quiet (h : Confined k R d d') (h' : Confined k (fun _ => False) d' e) :
    Confined k R d e := h.trans h' fun _ _ hfalse => hfalse.elim

theorem after_quiet (h : Confined k R d' e) (h' : Confined k (fun _ => False) d d') :
    Confined k R d e :=
  (h'.mono fun _ hfalse => hfalse.elim).trans h fun _ _ => id

end Confined

/-! ## Flags and tallies -/

/-- **The first overflow raises the flag and sounds the alarm**, and no later
one does. -/
theorem confined_signal (hk : k < d.collectors.size) (reason : Reason) :
    Confined k (· = reason) d (d.signal k reason) ∧ (d.signal k reason).flagged k = true := by
  unfold signal
  dsimp only
  split
  · next hup => exact ⟨.refl k d, hup⟩
  · next hdown =>
    rw [Bool.not_eq_true] at hdown
    have hup : (d.modifyCollector k fun s =>
        { s with losses := { s.losses with overflowed := true } }).flagged k = true := by
      rw [flagged, collector_modifyCollector hk]
    refine ⟨⟨Array.size_modify, fun _ hj => collector_modifyCollector_of_ne hj, ?_, ?_, ?_⟩, hup⟩
    · refine congr_modifyCollector Collector.options (fun _ => ?_) k
      rfl
    · intro hclosed
      refine (congr_modifyCollector Collector.closed (fun _ => ?_) k).trans hclosed
      rfl
    · refine .rung reason rfl hdown hup ?_
      simp [alarms, note, Depot.modifyCollector, Notice.isOverflow, alarm]

theorem confined_close (d : Depot) (k : CollectorId) : Confined k R d (d.close k) :=
  .modifyCollector (fun _ => rfl) (fun _ _ => rfl) fun _ => rfl

theorem confined_recordDropped (hk : k < d.collectors.size) (reason : Reason) :
    Confined k (· = reason) d (d.recordDropped k reason) ∧
      (d.recordDropped k reason).flagged k = true := by
  obtain ⟨hsignal, hup⟩ := confined_signal (d := d.modifyCollector k fun s =>
    { s with losses := { s.losses with droppedEvents := s.losses.droppedEvents + 1 } })
    (by rwa [Depot.modifyCollector, Array.size_modify]) reason
  exact ⟨hsignal.after_quiet (.modifyCollector (fun _ => rfl) (fun _ => id) fun _ => rfl), hup⟩

theorem confined_recordSampledOut (d : Depot) (k : CollectorId) :
    Confined k R d (d.recordSampledOut k) :=
  .modifyCollector (fun _ => rfl) (fun _ => id) fun _ => rfl

theorem confined_recordRateLimited (hk : k < d.collectors.size) :
    Confined k (· = .rateLimit) d (d.recordRateLimited k) ∧
      (d.recordRateLimited k).flagged k = true := by
  obtain ⟨hsignal, hup⟩ := confined_signal (d := d.modifyCollector k fun s =>
    { s with losses := { s.losses with rateLimited := s.losses.rateLimited + 1 } })
    (by rwa [Depot.modifyCollector, Array.size_modify]) .rateLimit
  exact ⟨hsignal.after_quiet (.modifyCollector (fun _ => rfl) (fun _ => id) fun _ => rfl), hup⟩

/-! ## Chunks -/

theorem alarms_giveBack (d : Depot) (c : ChunkId) : (d.giveBack c).2.alarms = d.alarms :=
  alarms_congr (giveBack_journal d c)

theorem confined_giveBack (d : Depot) (c : ChunkId) (k : CollectorId) :
    Confined k R d (d.giveBack c).2 :=
  .of_collectors (giveBack_collectors d c) (alarms_giveBack d c)

theorem alarms_take (d : Depot) : d.take.2.alarms = d.alarms := by
  unfold take
  split
  · rfl
  · exact alarms_note rfl

/-- Giving a chunk up is no overflow by itself. -/
theorem confined_evict (hevict : d.evictOldest? k = some d') : Confined k R d d' := by
  obtain ⟨c, pre, post, -, -, rfl⟩ := evictOldest?_eq_some.mp hevict
  have hgiven : Confined k (fun _ => False) d
      (d.modifyCollector k (·.giveUp (pre ++ post) (d.chunk c).size)) :=
    .modifyCollector (fun _ => rfl) (fun _ => id) fun _ => rfl
  have hnoted := hgiven.then_quiet (e := (d.modifyCollector k
    (·.giveUp (pre ++ post) (d.chunk c).size)).note (.chunkEvicted k (d.chunk c).events))
    (.of_collectors rfl (alarms_note rfl))
  exact (hnoted.then_quiet (confined_giveBack _ c k)).mono fun _ hfalse => hfalse.elim

theorem confined_makeChunkRoom (n : Nat) (d : Depot) (k : CollectorId) :
    Confined k R d (makeChunkRoom n d k).2 := by
  induction n generalizing d with
  | zero => exact .refl k d
  | succ n ih =>
    unfold makeChunkRoom
    cases hevict : d.evictOldest? k with
    | none => exact .refl k d
    | some d₁ =>
      dsimp only
      split
      · exact confined_evict hevict
      · exact (ih d₁).after_quiet (confined_evict hevict)

theorem confined_makeEventRoom (n : Nat) (d : Depot) (k : CollectorId) :
    Confined k R d (makeEventRoom n d k) := by
  induction n generalizing d with
  | zero => exact .refl k d
  | succ n ih =>
    unfold makeEventRoom
    split
    · exact .refl k d
    · cases hevict : d.evictOldest? k with
      | none => exact .refl k d
      | some d₁ => exact (ih d₁).after_quiet (confined_evict hevict)

theorem confined_enterChunk (d : Depot) (k : CollectorId) : Confined k R d (d.enterChunk k).2 := by
  have htaken : Confined k R d d.take.2 := .of_collectors (take_collectors d) (alarms_take d)
  exact htaken.then_quiet (.modifyCollector (fun _ => rfl) (fun _ => id) fun _ => rfl)

/-- A cap that is reached is that of a session that is there. -/
theorem lt_size_of_atCap (reason : Reason) (h : (d.collector k).AtCap reason) :
    k < d.collectors.size := by
  by_contra hge
  rw [collector_of_ge (Nat.le_of_not_lt hge)] at h
  cases reason with
  | maxTotalEvents => exact absurd (show Collector.hasEventRoom default = false from h) (by decide)
  | maxTotalChunks => exact absurd (show Collector.hasChunkRoom default = false from h) (by decide)
  | rateLimit => exact h

/-- **A rental sounds the alarm of the chunk cap**, and only where that was
reached. -/
theorem confined_rentChunk (d : Depot) (k : CollectorId) :
    Confined k (fun reason => reason = .maxTotalChunks ∧ (d.collector k).hasChunkRoom = false) d
      (d.rentChunk k).2 := by
  unfold rentChunk
  split
  · exact .refl k d
  · split
    · exact confined_enterChunk d k
    · next hfull =>
      rw [Bool.not_eq_true] at hfull
      have hk : k < d.collectors.size := lt_size_of_atCap .maxTotalChunks hfull
      have hsignal : ∀ e, Confined k (fun _ => False) d e →
          Confined k (fun reason => reason = .maxTotalChunks ∧
            (d.collector k).hasChunkRoom = false) d (e.signal k .maxTotalChunks) := by
        intro e he
        have hsignalled := (confined_signal (he.size.symm ▸ hk) .maxTotalChunks).1
        exact (hsignalled.mono fun _ hreason => ⟨hreason, hfull⟩).after_quiet he
      unfold rentAtCap
      split
      · exact hsignal d (.refl k d)
      · exact (hsignal d (.refl k d)).then_quiet (confined_close _ k)
      · have hthinned := confined_makeChunkRoom (R := fun _ => False)
          (d.collector k).ledger.length d k
        split
        · next thinned hroom =>
          rw [hroom] at hthinned
          exact hsignal thinned hthinned
        · next thinned hroom =>
          rw [hroom] at hthinned
          exact hsignal _ (hthinned.then_quiet (confined_enterChunk thinned k))

/-- A rental by hand is a rental, but for who holds the chunk. -/
theorem rent_spec (d : Depot) (k : CollectorId) :
    (d.rent k).2.collectors = (d.rentChunk k).2.collectors ∧
      (d.rent k).2.alarms = (d.rentChunk k).2.alarms := by
  unfold rent
  split
  · next hrent =>
    rw [hrent]
    exact ⟨rfl, rfl⟩
  · next hrent =>
    rw [hrent]
    exact ⟨rfl, rfl⟩

theorem confined_rent (d : Depot) (k : CollectorId) :
    Confined k (fun reason => reason = .maxTotalChunks ∧ (d.collector k).hasChunkRoom = false) d
      (d.rent k).2 :=
  (confined_rentChunk d k).then_quiet (.of_collectors (rent_spec d k).1 (rent_spec d k).2)

/-- **A rental at the chunk cap is an overflow**, whatever comes of it. -/
theorem flagged_rentAtCap (hfull : (d.collector k).hasChunkRoom = false) :
    (d.rentAtCap k).2.flagged k = true := by
  have hk : k < d.collectors.size := lt_size_of_atCap .maxTotalChunks hfull
  unfold rentAtCap
  split
  · exact (confined_signal hk _).2
  · exact (confined_close _ k (R := fun _ => False)).flagged_mono (confined_signal hk _).2
  · have hthinned := confined_makeChunkRoom (R := fun _ => False) (d.collector k).ledger.length d k
    split
    · next thinned hroom =>
      rw [hroom] at hthinned
      exact (confined_signal (hthinned.size.symm ▸ hk) _).2
    · next thinned hroom =>
      rw [hroom] at hthinned
      have hentered := hthinned.then_quiet (confined_enterChunk thinned k)
      exact (confined_signal (hentered.size.symm ▸ hk) _).2

/-- **An open session refuses a chunk only at the cap.** -/
theorem flagged_of_rentChunk_none (hopen : (d.collector k).closed = false)
    (h : d.rentChunk k = (none, d')) : d'.flagged k = true := by
  unfold rentChunk at h
  rw [if_neg (by simp [hopen])] at h
  split at h
  · simp at h
  · next hfull =>
    have hup := flagged_rentAtCap (by simpa using hfull)
    rwa [h] at hup

/-- A rental that leaves the flag down leaves the count of events. -/
theorem eventCount_rentChunk (hdown : (d.rentChunk k).2.flagged k = false) :
    ((d.rentChunk k).2.collector k).eventCount = (d.collector k).eventCount := by
  unfold rentChunk at hdown ⊢
  split at hdown
  · next hclosed => rw [if_pos hclosed]
  · next hopen =>
    rw [if_neg hopen]
    split at hdown
    · next hroom => rw [if_pos hroom, collector_enterChunk]
    · next hfull =>
      exact absurd (hdown.symm.trans (flagged_rentAtCap (by simpa using hfull))) (by simp)

theorem confined_markIdle (d : Depot) (k : CollectorId) (c : ChunkId) :
    Confined k R d (d.markIdle k c) :=
  .modifyCollector (fun _ => rfl) (fun _ => id) fun _ => rfl

theorem confined_releaseChunk (d : Depot) (k : CollectorId) (c : ChunkId) :
    Confined k R d (d.releaseChunk k c) := by
  unfold releaseChunk
  split
  · exact confined_giveBack d c k
  · exact confined_markIdle d k c

theorem confined_modifyWriter (d : Depot) (w : WriterId) (f : Writer → Writer) (k : CollectorId) :
    Confined k R d (d.modifyWriter w f) := .of_collectors rfl rfl

theorem confined_letGo (d : Depot) (w : WriterId) (k : CollectorId) :
    Confined k R d (d.letGo w k) := by
  unfold letGo
  split
  · exact .refl k d
  · next c _ => exact (confined_releaseChunk _ k c).after_quiet (confined_modifyWriter d w _ k)

/-! ## Events -/

/-- **An admission sounds the alarm of the event cap**, and only where that
was reached. -/
theorem confined_admitEvent (d : Depot) (k : CollectorId) :
    Confined k (fun reason => reason = .maxTotalEvents ∧ (d.collector k).hasEventRoom = false) d
      (d.admitEvent k).2 := by
  have hcount : ∀ e : Depot, Confined k (fun _ => False) e
      (e.modifyCollector k Collector.countEvent) := fun e =>
    .modifyCollector (fun _ => rfl) (fun _ => id) fun _ => rfl
  unfold admitEvent
  dsimp only
  split
  · exact .refl k d
  · split
    · exact (hcount d).mono fun _ hfalse => hfalse.elim
    · next hfull =>
      rw [Bool.not_eq_true] at hfull
      have hk : k < d.collectors.size := lt_size_of_atCap .maxTotalEvents hfull
      have hreached : ∀ {e e' : Depot}, Confined k (fun _ => False) d e →
          Confined k (· = .maxTotalEvents) e e' →
          Confined k (fun reason => reason = .maxTotalEvents ∧
            (d.collector k).hasEventRoom = false) d e' := fun he he' =>
        (he'.mono fun _ hreason => ⟨hreason, hfull⟩).after_quiet he
      split
      · exact hreached (.refl k d) (confined_recordDropped hk _).1
      · exact (hreached (.refl k d) (confined_recordDropped hk _).1).then_quiet (confined_close _ k)
      · have hthinned := confined_makeEventRoom (R := fun _ => False)
          (d.collector k).ledger.length d k
        split
        · have hcounted := hthinned.then_quiet (hcount _)
          exact hreached hcounted (confined_signal (hcounted.size.symm ▸ hk) _).1
        · exact hreached hthinned (confined_recordDropped (hthinned.size.symm ▸ hk) _).1

/-! ## Writers -/

/-- Renewing a chunk is a rental, but for what the writer remembers of it. -/
theorem renewChunk_spec (d : Depot) (w : WriterId) (k : CollectorId) :
    (d.renewChunk w k).2.collectors = ((d.letGo w k).rentChunk k).2.collectors ∧
      (d.renewChunk w k).2.alarms = ((d.letGo w k).rentChunk k).2.alarms := by
  unfold renewChunk
  split
  · next hrent =>
    rw [hrent]
    exact ⟨rfl, rfl⟩
  · next hrent =>
    rw [hrent]
    exact ⟨rfl, rfl⟩

theorem confined_renewChunk (d : Depot) (w : WriterId) (k : CollectorId) :
    Confined k (fun reason => reason = .maxTotalChunks ∧ (d.collector k).hasChunkRoom = false) d
      (d.renewChunk w k).2 := by
  obtain ⟨hcollectors, halarms⟩ := renewChunk_spec d w k
  have hletGo : Confined k (fun _ => False) d (d.letGo w k) := confined_letGo d w k
  have hrented := (confined_rentChunk (d.letGo w k) k).after_quiet hletGo
  rw [hasChunkRoom_letGo] at hrented
  exact hrented.then_quiet (.of_collectors hcollectors halarms)

/-- Seeing to room is an affair of the session, which may reach its chunk cap. -/
theorem confined_holdRoom (d : Depot) (w : WriterId) (k : CollectorId) :
    Confined k (fun reason => reason = .maxTotalChunks ∧ (d.collector k).hasChunkRoom = false) d
      (d.holdRoom w k).2 := by
  unfold holdRoom
  split
  · split
    · exact confined_renewChunk d w k
    · exact .refl k d
  · exact confined_renewChunk d w k

theorem flagged_of_holdRoom_false (hopen : (d.collector k).closed = false)
    (h : d.holdRoom w k = (false, d')) : d'.flagged k = true := by
  have hrenewed : d.renewChunk w k = (false, d') → d'.flagged k = true := by
    intro hrenew
    unfold renewChunk at hrenew
    split at hrenew
    · next hrent =>
      simp only [Prod.mk.injEq, true_and] at hrenew
      rw [← hrenew]
      exact flagged_of_rentChunk_none (by rwa [closed_letGo]) hrent
    · simp at hrenew
  unfold holdRoom at h
  split at h
  · split at h
    · exact hrenewed h
    · simp at h
  · exact hrenewed h

/-- Seeing to room makes no room for events, unless that is an overflow. -/
theorem hasEventRoom_holdRoom (hdown : (d.holdRoom w k).2.flagged k = false) :
    ((d.holdRoom w k).2.collector k).hasEventRoom = (d.collector k).hasEventRoom := by
  have hrenewed : (d.renewChunk w k).2.flagged k = false →
      ((d.renewChunk w k).2.collector k).eventCount = (d.collector k).eventCount := by
    obtain ⟨hcollectors, -⟩ := renewChunk_spec d w k
    have hsame : (d.renewChunk w k).2.collector k =
        ((d.letGo w k).rentChunk k).2.collector k := by
      rw [collector, hcollectors, collector]
    rw [flagged, hsame]
    intro hdown
    rw [eventCount_rentChunk hdown, (same_letGo d w k k).eventCount]
  have hcount : ((d.holdRoom w k).2.collector k).eventCount = (d.collector k).eventCount := by
    unfold holdRoom at hdown ⊢
    split
    · split
      · simp_all
      · rfl
    · simp_all
  rw [Collector.hasEventRoom, Collector.hasEventRoom, hcount, (confined_holdRoom d w k).options]

/-- Writing an event to a chunk is on no session's record. -/
theorem collector_append (d : Depot) (w : WriterId) (em : Emission) (stamp : Int)
    (k : CollectorId) : (d.append w em stamp).2.collector k = d.collector k := by
  unfold append
  split
  · rfl
  · split <;> rfl

theorem confined_append (d : Depot) (w : WriterId) (em : Emission) (stamp : Int)
    (k : CollectorId) : Confined k R d (d.append w em stamp).2 := by
  unfold append
  split
  · exact .refl k d
  · split
    · exact .refl k d
    · exact .of_collectors rfl rfl

/-- **Placing an event sounds the alarm of a cap only where it was reached**
before. -/
theorem confined_place (w : WriterId) (hopen : (d.collector k).closed = false) (em : Emission)
    (stamp : Int) : Confined k (d.collector k).AtCap d (d.place w k em stamp).2 := by
  have hheld : Confined k (d.collector k).AtCap d (d.holdRoom w k).2 :=
    (confined_holdRoom d w k).mono fun _ hreason => hreason.1 ▸ hreason.2
  have hevents := hasEventRoom_holdRoom (d := d) (w := w) (k := k)
  unfold place
  cases hroom : d.holdRoom w k with
  | mk ok d₁ =>
    rw [hroom] at hheld hevents
    cases ok with
    | false =>
      -- the refusal has raised the flag, so counting the event sounds no alarm
      have hup := flagged_of_holdRoom_false hopen hroom
      exact hheld.trans (confined_recordDropped (lt_size_of_flagged hup) _).1 fun _ hdown _ =>
        absurd (hup.symm.trans hdown) (by simp)
    | true =>
      have hadmitted := hheld.trans (confined_admitEvent d₁ k) fun reason hdown hreason => by
        obtain ⟨rfl, hfull⟩ := hreason
        exact (hevents hdown).symm.trans hfull
      dsimp only
      cases hoffer : d₁.admitEvent k with
      | mk ok d₂ =>
        rw [hoffer] at hadmitted
        cases ok with
        | false => exact hadmitted
        | true => exact hadmitted.then_quiet (confined_append d₂ w em stamp k)

theorem confined_detach (hw : d.writer? w = some s) (hs : s.collector = some k) :
    Confined k R d (d.detach w) := by
  simp only [detach, hw, hs]
  exact (confined_letGo _ w k).after_quiet (.of_collectors rfl rfl)

/-- A writer without a session is nobody's affair. -/
theorem detach_of_none (hw : ∀ s, d.writer? w = some s → s.collector = none) :
    (d.detach w).collectors = d.collectors ∧ (d.detach w).alarms = d.alarms := by
  unfold detach
  split
  · exact ⟨rfl, rfl⟩
  · next s hs =>
    rw [hw s hs]
    exact ⟨rfl, rfl⟩

theorem confined_dropWriter (hw : d.writer? w = some s) (hs : s.collector = some k) :
    Confined k R d (d.dropWriter w) := by
  simp only [dropWriter, hw, hs]
  exact (confined_letGo d w k).then_quiet (.of_collectors rfl rfl)

theorem dropWriter_of_none (hw : ∀ s, d.writer? w = some s → s.collector = none) :
    (d.dropWriter w).collectors = d.collectors ∧ (d.dropWriter w).alarms = d.alarms := by
  unfold dropWriter
  split
  · exact ⟨rfl, rfl⟩
  · next s hs =>
    rw [hw s hs]
    exact ⟨rfl, rfl⟩

/-- A writer is in a session, or it is in none. -/
theorem session_cases (d : Depot) (w : WriterId) :
    (∀ s, d.writer? w = some s → s.collector = none) ∨
      ∃ s k, d.writer? w = some s ∧ s.collector = some k := by
  cases hw : d.writer? w with
  | none => exact .inl fun s hs => absurd hs (by simp)
  | some s =>
    cases hs : s.collector with
    | none =>
      refine .inl fun r hr => ?_
      obtain rfl := Option.some.inj hr
      exact hs
    | some k => exact .inr ⟨s, k, rfl, hs⟩

/-- A writer that is in no session writes nothing. -/
theorem write_of_none (hw : ∀ s, d.writer? w = some s → s.collector = none) (em : Emission)
    (now : Reading) : (d.write w em now).1 = false ∧
      (d.write w em now).2.collectors = d.collectors ∧
      (d.write w em now).2.alarms = d.alarms := by
  have hreach : d.reaches w = none := by
    refine Option.eq_none_iff_forall_ne_some.mpr fun k hk => ?_
    obtain ⟨s, hs, hcollector, -⟩ := reaches_eq_some.mp hk
    exact absurd ((hw s hs).symm.trans hcollector) (by simp)
  rw [write_of_not_reaches hreach]
  exact ⟨rfl, detach_of_none hw⟩

/-- A writer of a closed session is detached. -/
theorem write_of_closed (hw : d.writer? w = some s) (hs : s.collector = some k)
    (hclosed : (d.collector k).closed = true) (em : Emission) (now : Reading) :
    d.write w em now = (false, d.detach w) := by
  refine write_of_not_reaches ?_ em now
  simp [reaches, hw, isWriterClosed, hs, hclosed]

/-- What the alarm of a write can be for: a cap of the session that was
reached when the write came, if the writer's tests let the event pass, or else
the rate, if they found it exceeded. -/
def Reached (d : Depot) (k : CollectorId) (s : Writer) (em : Emission) (now : Reading)
    (reason : Reason) : Prop :=
  (s.screen.screen em.id em.kind now.arrival).1 = .passed ∧ (d.collector k).AtCap reason ∨
    (s.screen.screen em.id em.kind now.arrival).1 = .rateLimited ∧ reason = .rateLimit

/-- **A write is an affair of its writer's session.** -/
theorem confined_write (hw : d.writer? w = some s) (hs : s.collector = some k)
    (hk : k < d.collectors.size) (em : Emission) (now : Reading) :
    Confined k (d.Reached k s em now) d (d.write w em now).2 := by
  rcases reaches_cases hw hs with hreach | hreach
  · rw [write_of_not_reaches hreach]
    exact confined_detach hw hs
  · have hopen : (d.collector k).closed = false := open_of_reaches hreach
    rw [write_of_reaches hreach hw]
    generalize hscreen : s.screen.screen em.id em.kind now.arrival = screened
    obtain ⟨verdict, screen⟩ := screened
    have hscreened : Confined k (fun _ => False) d (d.rescreen w screen) :=
      confined_modifyWriter d w _ k
    refine Confined.after_quiet ?_ hscreened
    cases verdict with
    | filtered => exact .refl k _
    | sampledOut => exact confined_recordSampledOut _ k
    | rateLimited =>
      refine (confined_recordRateLimited (d := d.rescreen w screen) hk).1.mono ?_
      intro reason hreason
      exact .inr ⟨congrArg Prod.fst hscreen, hreason⟩
    | passed =>
      refine (confined_place (d := d.rescreen w screen) w hopen em now.stamp).mono ?_
      intro reason hreason
      exact .inl ⟨congrArg Prod.fst hscreen, hreason⟩

end Depot

end EventTrace
