import EventTrace.Proofs.Depot.Overflow
/-!
# Depot — a write is refused or paid for

A write that is refused leaves every event held where it is, and is counted as
lost by one cause, unless no one asked for it. A write that is done may have
cost one chunk with events, and only at a cap of a session that drops the
oldest (`write_atomic`).
-/

namespace EventTrace

open Depot

namespace Collector

/-- A session that drops the oldest has reached one of its caps. -/
def Overflows (s : Collector) : Prop :=
  s.options.policy = .dropOldest ∧
    (s.options.maxTotalChunks ≠ 0 ∧ s.chunkCount = s.options.maxTotalChunks ∨
      s.options.maxTotalEvents ≠ 0 ∧ s.eventCount.toNat = s.options.maxTotalEvents)

end Collector

namespace Depot

variable {b d d' e e' : Depot} {c : ChunkId} {k j : CollectorId} {w : WriterId} {s : Writer}
  {F G : List CollectorId} {n : Nat} {events : List Event}

/-! ## An event admitted -/

namespace Costs

/-- Where there is no room for an event, nothing was paid yet. -/
theorem of_no_room (h : Costs w j k b e) (hroom : (e.collector j).hasEventRoom = false) :
    Spares k none b e ∧ Readied b w k e := by
  cases h with
  | nothing hs hr => exact ⟨hs, hr⟩
  | chunk _ _ _ _ _ hjk hsome =>
    subst hjk
    exact absurd (hsome.symm.trans hroom) (by simp)

/-- **Room for an event costs one chunk with events at most**, with what was
paid for a chunk. -/
theorem makeEventRoom (hF : k ∉ F) (hG : k ∉ G) (n' : Nat) (h : Stocked F G n e)
    (hopen : (e.collector j).closed = false) (hc : Costs w j k b e) :
    Costs w j k b (makeEventRoom n' e j) := by
  induction n' generalizing e with
  | zero => exact hc
  | succ n' ih =>
    unfold Depot.makeEventRoom
    split
    · exact hc
    · next hroom =>
      rw [Bool.not_eq_true] at hroom
      obtain ⟨hs, hr⟩ := hc.of_no_room hroom
      cases hevict : e.evictOldest? j with
      | none => exact hc
      | some e' =>
        have hopen' : (e'.collector j).closed = false := by
          rw [closed_evictOldest? hevict, hopen]
        exact ih (h.evict hevict) hopen' (.evict h hF hG hopen hs hr hevict)

/-- An event that is not admitted has cost nothing, and is counted as
dropped. -/
theorem admitEvent_false (h : Stocked F G n e) (hF : k ∉ F) (hG : k ∉ G)
    (hopen : (e.collector j).closed = false) (hj : j < e.collectors.size)
    (hc : Costs w j k b e) (hrefused : e.admitEvent j = (false, d')) :
    Spares k (if j = k then some .dropped else none) b d' := by
  unfold admitEvent at hrefused
  dsimp only at hrefused
  rw [if_neg (by simp [hopen])] at hrefused
  split at hrefused
  · simp at hrefused
  · next hroom =>
    rw [Bool.not_eq_true] at hroom
    have hspared := (hc.of_no_room hroom).1
    split at hrefused
    · simp only [Prod.mk.injEq, true_and] at hrefused
      exact hrefused ▸ (Spares.recordDropped hj _ k).after hspared
    · simp only [Prod.mk.injEq, true_and] at hrefused
      exact hrefused ▸ ((Spares.recordDropped hj _ k).after hspared).then_none (.close _ j k)
    · have hturns := (turns_makeEventRoom (e.collector j).ledger.length hopen).1
      have hthinned := makeEventRoom hF hG (e.collector j).ledger.length h hopen hc
      split at hrefused
      · simp at hrefused
      · next hroom' =>
        rw [Bool.not_eq_true] at hroom'
        have hj' := hj
        rw [← (Moves.of_turns hturns).size] at hj'
        simp only [Prod.mk.injEq, true_and] at hrefused
        exact hrefused ▸ (Spares.recordDropped hj' _ k).after (hthinned.of_no_room hroom').1

/-- An event that is admitted costs what was paid when it is counted. -/
theorem admitEvent_true (h : Stocked F G n e) (hF : k ∉ F) (hG : k ∉ G) (hc : Costs w j k b e)
    (hadmitted : e.admitEvent j = (true, d')) :
    ∃ e₁, Costs w j k b e₁ ∧ d'.evictions k = e₁.evictions k := by
  unfold admitEvent at hadmitted
  dsimp only at hadmitted
  split at hadmitted
  · simp at hadmitted
  · next hopen =>
    rw [Bool.not_eq_true] at hopen
    split at hadmitted
    · simp only [Prod.mk.injEq, true_and] at hadmitted
      exact ⟨e, hc, hadmitted ▸ rfl⟩
    · split at hadmitted
      · simp at hadmitted
      · simp at hadmitted
      · split at hadmitted
        · simp only [Prod.mk.injEq, true_and] at hadmitted
          exact ⟨_, makeEventRoom hF hG (e.collector j).ledger.length h hopen hc,
            hadmitted ▸ (agree_signal _ j _).evictions k⟩
        · simp at hadmitted

/-- What was paid: no chunk with events, or the oldest that no one holds. -/
theorem exists_lost (h : Costs w j k b e) :
    ∃ lost, e.evictions k = b.evictions k ++ lost ∧ (lost.filter (!·.isEmpty) = [] ∨
      ∃ events, lost.filter (!·.isEmpty) = [events] ∧ OldestUnheld b w k events) := by
  cases h with
  | nothing hs _ =>
    obtain ⟨n, hn⟩ := hs.evictions
    exact ⟨List.replicate n [], hn, .inl (by simp)⟩
  | chunk lost events holdest hevictions hlost =>
    exact ⟨lost, hevictions, .inr ⟨events, hlost, holdest⟩⟩

end Costs

/-! ## An event placed -/

/-- **An event that is not placed has cost nothing**, and is counted as
dropped. -/
theorem Costs.place_false (h : Stocked F G n b) (hF : k ∉ F) (hG : k ∉ G)
    (hw : b.writer? w = some s) (hs : s.collector = some j)
    (hopen : (b.collector j).closed = false) {em : Emission} {stamp : Int}
    (hplace : b.place w j em stamp = (false, d')) :
    Spares k (if j = k then some .dropped else none) b d' := by
  have hj := h.attached w s j hw hs
  unfold place at hplace
  split at hplace
  · next e hroom =>
    have hj' := hj
    rw [← (moves_holdRoom_false hw hs hroom).size] at hj'
    simp only [Prod.mk.injEq, true_and] at hplace
    exact hplace ▸ (Spares.recordDropped hj' _ k).after (holdRoom_false h hF hG hw hs hroom)
  · next e hroom =>
    obtain ⟨hmoves, -, -, -, hopen'⟩ := h.owned.holdRoom hw hs hopen hroom
    have hj' := hj
    rw [← hmoves.size] at hj'
    split at hplace
    · next e' hrefused =>
      simp only [Prod.mk.injEq, true_and] at hplace
      exact hplace ▸ admitEvent_false (h.moves hmoves) hF hG hopen' hj'
        (holdRoom_true h hF hG hw hs hroom) hrefused
    · next e' hadmitted =>
      have happend := h.owned.append_true hw hs hopen hroom hadmitted em stamp
      rw [hplace] at happend
      exact absurd happend Bool.false_ne_true

theorem evictions_append (d : Depot) (w : WriterId) (em : Emission) (stamp : Int)
    (k : CollectorId) : (d.append w em stamp).2.evictions k = d.evictions k := by
  unfold append
  split
  · rfl
  · split <;> rfl

/-- **An event that is placed has cost one chunk with events at most.** -/
theorem Costs.place_true (h : Stocked F G n b) (hF : k ∉ F) (hG : k ∉ G)
    (hw : b.writer? w = some s) (hs : s.collector = some j)
    (hopen : (b.collector j).closed = false) {em : Emission} {stamp : Int}
    (hplace : b.place w j em stamp = (true, d')) :
    ∃ e, Costs w j k b e ∧ d'.evictions k = e.evictions k := by
  unfold place at hplace
  split at hplace
  · simp at hplace
  · next e hroom =>
    obtain ⟨hmoves, -⟩ := h.owned.holdRoom hw hs hopen hroom
    split at hplace
    · simp at hplace
    · next e' hadmitted =>
      obtain ⟨e₁, hcosts, hevictions⟩ := admitEvent_true (h.moves hmoves) hF hG
        (holdRoom_true h hF hG hw hs hroom) hadmitted
      refine ⟨e₁, hcosts, ?_⟩
      rw [← hevictions, ← evictions_append e' w em stamp, hplace]

/-! ## What may be given up at all -/

/-- A session's turns are on no other session's record. -/
theorem Turns.evictions_of_ne (h : Turns j d d') (hk : k ≠ j) :
    d'.evictions k = d.evictions k := by
  induction h with
  | refl => rfl
  | tail _ hturn ih =>
    rw [← ih]
    cases hturn with
    | keep hagree => exact hagree.evictions k
    | close => rfl
    | evict _ hevict => exact (same_evict hevict hk).evictions

/-- A rental gives chunks up only at the chunk cap. -/
theorem evictions_rentChunk (d : Depot) (j k : CollectorId) :
    (d.rentChunk j).2.evictions k = d.evictions k ∨ k = j ∧
      (d.collector k).options.policy = .dropOldest ∧ (d.collector k).hasChunkRoom = false := by
  by_cases hk : k = j
  · subst hk
    unfold rentChunk
    split
    · exact .inl rfl
    · split
      · exact .inl (evictions_enterChunk d k k)
      · next hfull =>
        unfold rentAtCap
        split
        · exact .inl ((agree_signal d k _).evictions k)
        · exact .inl ((agree_signal d k _).evictions k)
        · next hpolicy => exact .inr ⟨rfl, hpolicy, by simpa using hfull⟩
  · refine .inl ?_
    cases hrent : d.rentChunk j with
    | mk o d' =>
      cases o with
      | none => exact (rentChunk_none hrent).evictions_of_ne hk
      | some c =>
        obtain ⟨d₁, hturns, -, -, -, hagree⟩ := rentChunk_some hrent
        exact (hagree.evictions k).trans
          ((evictions_enterChunk d₁ j k).trans (hturns.evictions_of_ne hk))

theorem evictions_holdRoom (j k : CollectorId) (hw : d.writer? w = some s) :
    (d.holdRoom w j).2.evictions k = d.evictions k ∨ k = j ∧
      (d.collector k).options.policy = .dropOldest ∧ (d.collector k).hasChunkRoom = false := by
  rcases holdRoom_eq j hw with ⟨-, -, -, heq⟩ | ⟨-, heq⟩
  · rw [heq]
    exact .inl rfl
  · have hrenew : (d.renewChunk w j).2.evictions k =
        ((d.letGo w j).rentChunk j).2.evictions k := by
      unfold renewChunk
      split
      · next hrent => rw [hrent]
      · next hrent =>
        rw [hrent]
        rfl
    have hrent := evictions_rentChunk (d.letGo w j) j k
    rwa [heq, hrenew, ← (same_letGo d w j k).evictions, ← options_letGo d w j k,
      ← hasChunkRoom_letGo d w j k]

/-- An admission gives chunks up only at the event cap. -/
theorem evictions_admitEvent (d : Depot) (j k : CollectorId) :
    (d.admitEvent j).2.evictions k = d.evictions k ∨ k = j ∧
      (d.collector k).options.policy = .dropOldest ∧ (d.collector k).hasEventRoom = false := by
  unfold admitEvent
  dsimp only
  split
  · exact .inl rfl
  · next hopen =>
    rw [Bool.not_eq_true] at hopen
    split
    · exact .inl rfl
    · next hroom =>
      split
      · exact .inl ((refuses_recordDropped d j _).evictions k)
      · exact .inl ((refuses_recordDropped d j _).evictions k)
      · next hpolicy =>
        by_cases hk : k = j
        · subst hk
          exact .inr ⟨rfl, hpolicy, by simpa using hroom⟩
        · have hturns := (turns_makeEventRoom (d.collector j).ledger.length hopen).1
          have hsame := hturns.evictions_of_ne hk
          refine .inl ?_
          split
          · exact ((agree_signal _ j _).evictions k).trans hsame
          · exact ((refuses_recordDropped _ j _).evictions k).trans hsame

/-- **Nothing is given up but at a cap** of a session that drops the oldest. -/
theorem Stocked.evictions_place (h : Stocked F G n b) (hF : k ∉ F) (hG : k ∉ G)
    (hw : b.writer? w = some s) (hs : s.collector = some j)
    (hopen : (b.collector j).closed = false) {em : Emission} {stamp : Int}
    (hplace : b.place w j em stamp = (true, d')) :
    d'.evictions k = b.evictions k ∨ k = j ∧ (b.collector k).Overflows := by
  unfold place at hplace
  split at hplace
  · simp at hplace
  · next e hroom =>
    split at hplace
    · simp at hplace
    · next e' hadmitted =>
      have hheld := evictions_holdRoom j k hw
      have hcounted := evictions_admitEvent e j k
      rw [hroom] at hheld
      rw [hadmitted] at hcounted
      have hlast : d'.evictions k = e'.evictions k := by
        rw [← evictions_append e' w em stamp k, hplace]
      rcases hcounted with hcounted | ⟨rfl, hpolicy, hfull⟩
      · rcases hheld with hheld | ⟨rfl, hpolicy, hfull⟩
        · exact .inl (hlast.trans (hcounted.trans hheld))
        · exact .inr ⟨rfl, hpolicy, .inl ((h.slotted k hF).eq_of_full hfull)⟩
      · -- at the event cap nothing was paid before, so it was reached before
        have hcosts := Costs.holdRoom_true h hF hG hw hs hroom
        obtain ⟨hspared, -⟩ := hcosts.of_no_room hfull
        rw [hspared.hasEventRoom, Collector.hasEventRoom, Bool.or_eq_false_iff,
          beq_eq_false_iff_ne, decide_eq_false_iff_not, Nat.not_lt] at hfull
        obtain ⟨m, -, hcovers⟩ := h.covered k hF
        rw [hspared.options] at hpolicy
        exact .inr ⟨rfl, hpolicy, .inr ⟨hfull.1,
          Nat.le_antisymm (hcovers.toNat_le hfull.1) hfull.2⟩⟩

/-! ## Writes -/

/-- What a writer's tests remember is no one's chunk. -/
theorem heldThrough_rescreen {v : WriterId} {screen : Screen} :
    (d.rescreen v screen).HeldThrough w c ↔ d.HeldThrough w c := by
  have halike := alike_rescreen d v screen
  have hstep : ∀ {d d' : Depot}, Alike d d' → d'.HeldThrough w c → d.HeldThrough w c := by
    rintro d d' ha ⟨u, s', hu, hc, hfull⟩
    obtain ⟨s, hs, hcore⟩ := ha.writer? hu
    have hchunk : s.chunk = s'.chunk := by simpa using congrArg Writer.chunk hcore
    exact ⟨u, s, hs, hchunk.trans hc, fun heq => ha.chunk c ▸ hfull heq⟩
  exact ⟨hstep halike, hstep halike.symm⟩

theorem oldestUnheld_rescreen {v : WriterId} {screen : Screen} :
    (d.rescreen v screen).OldestUnheld w k events ↔ d.OldestUnheld w k events := by
  simp only [OldestUnheld, heldThrough_rescreen]
  rfl

/-- The stock is kept while an event is screened. -/
theorem Stocked.screened (h : Stocked F G n d) (hw : d.writer? w = some s) {em : Emission}
    {arrival : Int} {verdict : Verdict} {screen : Screen}
    (hscreen : s.screen.screen em.id em.kind arrival = (verdict, screen)) :
    Stocked F G n (d.rescreen w screen) := by
  have hscreened := h.rescreen hw em arrival
  rwa [hscreen] at hscreened

/-- **A refused write spares every event**, and is counted by one cause if it
was presented to the session. -/
theorem Stocked.write_false (h : Stocked F G n d) (hF : k ∉ F) (hG : k ∉ G) {em : Emission}
    {now : Reading} (hwrite : d.write w em now = (false, d')) :
    ∃ cause, Spares k cause d d' ∧ (cause.isSome = true ↔
      d.reaches w = some k ∧ (d.collector k).options.passes em.id = true) := by
  cases hreach : d.reaches w with
  | none =>
    rw [write_of_not_reaches hreach, Prod.mk.injEq] at hwrite
    exact ⟨none, hwrite.2 ▸ .detach h.owned w k, by simp⟩
  | some j =>
    obtain ⟨s, hw, hs, -⟩ := reaches_eq_some.mp hreach
    rw [write_of_reaches hreach hw] at hwrite
    have hverdict := Screen.filtered_iff s.screen em.id em.kind now.arrival
    generalize hscreen : s.screen.screen em.id em.kind now.arrival = screened at hwrite hverdict
    obtain ⟨verdict, screen⟩ := screened
    have hspared : Spares k none d (d.rescreen w screen) :=
      .of_alike (alike_rescreen d w screen) fun _ => rfl
    have hj : j < (d.rescreen w screen).collectors.size := h.attached w s j hw hs
    -- one cause is counted where the event was presented
    have hone : ∀ cause : Cause, verdict ≠ .filtered →
        ((if j = k then some cause else none).isSome = true ↔
          some j = some k ∧ (d.collector k).options.passes em.id = true) := by
      intro cause hpassed
      rw [Ne, hverdict, Bool.not_eq_false] at hpassed
      rw [← hreach, h.presents_iff hreach hw hs hpassed]
      by_cases hjk : j = k <;> simp [hjk]
    cases verdict with
    | filtered =>
      simp only [Prod.mk.injEq, true_and] at hwrite
      refine ⟨none, hwrite ▸ hspared, ?_⟩
      have hfilter := h.passesFilter_eq hw hs em.id
      rw [hverdict.mp rfl] at hfilter
      simp only [Option.isSome_none, Bool.false_eq_true, false_iff, not_and, Option.some.injEq]
      rintro rfl
      simp [← hfilter]
    | sampledOut =>
      simp only [Prod.mk.injEq, true_and] at hwrite
      exact ⟨_, hwrite ▸ (Spares.recordSampledOut hj k).after hspared, hone _ (by simp)⟩
    | rateLimited =>
      simp only [Prod.mk.injEq, true_and] at hwrite
      exact ⟨_, hwrite ▸ (Spares.recordRateLimited hj k).after hspared, hone _ (by simp)⟩
    | passed =>
      have hopen := open_of_reaches hreach
      have hplaced := Costs.place_false (h.screened hw hscreen) hF hG (writer?_rescreen hw screen)
        hs hopen hwrite
      exact ⟨_, hplaced.after hspared, hone _ (by simp)⟩

/-- What a session holds after a write that is done: one event more if it is
the writer's, without those given up. -/
theorem Stocked.held_write (h : Stocked F G n d) (hG : k ∉ G) {em : Emission} {now : Reading}
    (hwrite : d.write w em now = (true, d')) {lost : List (List Event)}
    (hlost : d'.evictions k = d.evictions k ++ lost) :
    d'.held k + lost.flatten.length = d.held k + if d.reaches w = some k then 1 else 0 := by
  have htried := (h.toPosted.tried (h.owned.writeEnds w em now) k).held hG
  simp only [hwrite, and_true, givenUp, hlost, List.flatten_append, List.length_append] at htried
  omega

/-- **A write that is done** has cost one chunk with events at most, and
nothing short of a cap. -/
theorem Stocked.write_true (h : Stocked F G n d) (hF : k ∉ F) (hG : k ∉ G) {em : Emission}
    {now : Reading} (hwrite : d.write w em now = (true, d')) :
    ∃ lost, d'.evictions k = d.evictions k ++ lost ∧
      (lost.filter (!·.isEmpty) = [] ∨
        ∃ events, lost.filter (!·.isEmpty) = [events] ∧ d.OldestUnheld w k events) ∧
      (lost ≠ [] → d.reaches w = some k ∧ (d.collector k).Overflows) := by
  cases hreach : d.reaches w with
  | none =>
    rw [write_of_not_reaches hreach] at hwrite
    simp at hwrite
  | some j =>
    obtain ⟨s, hw, hs, -⟩ := reaches_eq_some.mp hreach
    rw [write_of_reaches hreach hw] at hwrite
    generalize hscreen : s.screen.screen em.id em.kind now.arrival = screened at hwrite
    obtain ⟨verdict, screen⟩ := screened
    cases verdict with
    | passed =>
      have hstocked := h.screened hw hscreen
      have hw' := writer?_rescreen hw screen
      have hopen := open_of_reaches hreach
      obtain ⟨e, hcosts, hevictions⟩ := Costs.place_true hstocked hF hG hw' hs hopen hwrite
      obtain ⟨lost, hlost, hone⟩ := hcosts.exists_lost
      simp only [oldestUnheld_rescreen] at hone
      refine ⟨lost, hevictions.trans hlost, hone, fun hne => ?_⟩
      rcases hstocked.evictions_place hF hG hw' hs hopen hwrite with hsame | ⟨rfl, hover⟩
      · rw [hevictions, hlost, List.append_right_eq_self] at hsame
        exact absurd hsame hne
      · exact ⟨rfl, hover⟩
    | _ => simp at hwrite

end Depot

/-- **A write is refused or paid for.** Before a session is frozen, used
through writers only: a refused write leaves its chunks with events, the word
that counts these and every writer's sequence as they were, and is counted as
lost by one cause exactly if it reached the session and its id passed the
filter. A write that is done may have cost the session chunks, but one chunk
with events at most, which was the oldest such chunk that no writer held; and
none at all unless the session drops the oldest and had reached a cap. All
other events are held as before, with the one written. -/
theorem write_atomic (capacity : Nat) (ops : List Op) (k : CollectorId)
    (hk : .call (.freeze k) ∉ ops) (hfed : ThroughWriters ops) (htended : Tended capacity ops k)
    (w : WriterId) (em : Emission) (now : Reading) :
    let d := runOps capacity ops
    let r := d.write w em now
    (r.1 = false →
      r.2.filled k = d.filled k ∧
      (r.2.collector k).eventCount = (d.collector k).eventCount ∧
      (∀ v, (r.2.writer? v).map Writer.sequence = (d.writer? v).map Writer.sequence) ∧
      ∃ cause : Option Cause,
        (cause.isSome = true ↔
          d.reaches w = some k ∧ (d.collector k).options.passes em.id = true) ∧
        ∀ c, (r.2.collector k).lostBy c =
          (d.collector k).lostBy c + if cause = some c then 1 else 0) ∧
    (r.1 = true → ∃ lost, r.2.evictions k = d.evictions k ++ lost ∧
      (lost.filter (!·.isEmpty) = [] ∨
        ∃ events, lost.filter (!·.isEmpty) = [events] ∧ d.OldestUnheld w k events) ∧
      (lost ≠ [] → d.reaches w = some k ∧ (d.collector k).Overflows) ∧
      r.2.held k + lost.flatten.length =
        d.held k + if d.reaches w = some k then 1 else 0) := by
  intro d r
  obtain ⟨frozen, spoilt, hstocked, hfrozen, hspoilt⟩ := stocked_runOps capacity hfed
  have hF : k ∉ frozen := fun hin => hk (hfrozen k hin)
  have hG : k ∉ spoilt := fun hin => (hspoilt k hin).elim hk fun hnot => hnot htended
  refine ⟨fun hfalse => ?_, fun htrue => ?_⟩
  · obtain ⟨cause, hspares, hcause⟩ := hstocked.write_false hF hG (Prod.ext hfalse rfl)
    exact ⟨hspares.filled, hspares.eventCount, hspares.sequence, cause, hcause, hspares.lostBy⟩
  · have hdone : d.write w em now = (true, r.2) := Prod.ext htrue rfl
    obtain ⟨lost, hlost, hone, hover⟩ := hstocked.write_true hF hG hdone
    exact ⟨lost, hlost, hone, hover, hstocked.held_write hG hdone hlost⟩

/-- A session that holds one event and may hold no more, with a second writer
that fills no chunk yet. -/
def crowded : List Call :=
  let e : Emission := { id := 7, kind := .instant }
  [.newCollector { maxTotalEvents := 1, policy := .dropOldest }, .newWriter 0 1 none,
    .newWriter 0 2 none, .write 0 e ⟨1, 1⟩]

/-- Where the one chunk with events is held the second writer is refused, and
nothing is given up for it; at both caps it gives up what it wrote itself. -/
theorem write_atomic_crowded :
    let e : Emission := { id := 7, kind := .instant }
    let refusing := runOps 2 (crowded.map .call)
    let paying := runOps 1 (bothCaps.map .call)
    ((refusing.write 1 e ⟨2, 2⟩).1 = false ∧ refusing.filled 0 ≠ [] ∧
      (refusing.write 1 e ⟨2, 2⟩).2.filled 0 = refusing.filled 0) ∧
    (paying.write 1 e ⟨4, 4⟩).1 = true ∧
      ∃ event : Event, event.thread = 2 ∧ paying.OldestUnheld 1 0 [event] := by
  intro e refusing paying
  have hrefuses : Op.call (.freeze 0) ∉ crowded.map Op.call := by
    rw [freeze_mem_calls]
    simp [crowded]
  have hpays : Op.call (.freeze 0) ∉ bothCaps.map Op.call := by
    rw [freeze_mem_calls]
    simp [bothCaps]
  have hrefused : (refusing.write 1 e ⟨2, 2⟩).1 = false := by decide
  have hpaid : (paying.write 1 e ⟨4, 4⟩).1 = true := by decide
  obtain ⟨hspared, -⟩ := write_atomic 2 (crowded.map .call) 0 hrefuses
    (throughWriters_calls crowded) (tended_calls 2 crowded 0) 1 e ⟨2, 2⟩
  obtain ⟨-, hcost⟩ := write_atomic 1 (bothCaps.map .call) 0 hpays
    (throughWriters_calls bothCaps) (tended_calls 1 bothCaps 0) 1 e ⟨4, 4⟩
  refine ⟨⟨hrefused, by decide, (hspared hrefused).1⟩, hpaid, ?_⟩
  obtain ⟨lost, hlost, hone, -⟩ := hcost hpaid
  let event : Event := { id := 7, thread := 2, timestamp := 2, kind := .instant, sequence := 0 }
  have hgiven : (paying.write 1 e ⟨4, 4⟩).2.evictions 0 = paying.evictions 0 ++ [[event]] := by
    decide
  obtain rfl := List.append_cancel_left (hlost.symm.trans hgiven)
  rcases hone with hnone | ⟨events, hevents, holdest⟩
  · exact absurd hnone (by simp)
  · obtain rfl : [event] = events := by simpa using hevents
    exact ⟨event, rfl, holdest⟩

end EventTrace
