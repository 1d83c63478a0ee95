import EventTrace.Proofs.Depot.Chronicle
/-!
# Depot — the emission ledger balances

A write that finds its writer open and its id let pass is counted once: as
admitted or as lost. An eviction moves events from one count to the other,
and is on record, so the books can be checked at any time: `Steady` is that a
move changes no balance, `Balanced` that every call leaves them balanced, and
`Balanced.ofCalls` that they are after every run.
-/

namespace EventTrace

open Depot

namespace Depot

variable {d d' e : Depot} {c : ChunkId} {k j : CollectorId} {w : WriterId} {s : Writer}

/-- How many events a session gave up with their chunks. -/
def givenUp (d : Depot) (k : CollectorId) : Nat := (d.evictions k).flatten.length

/-- How many events a session holds. -/
def held (d : Depot) (k : CollectorId) : Nat := (d.contents k).flatten.length

/-! ## What changes no balance -/

/-- A session's balances are as they were: of losses, of the events counted
as held, and of the events held, each with what was given up. -/
structure Steady (k : CollectorId) (d d' : Depot) : Prop where
  tallied : (d'.collector k).tallied + d.givenUp k = (d.collector k).tallied + d'.givenUp k
  counted : (d'.collector k).eventCount + UInt64.ofNat (d'.givenUp k) =
    (d.collector k).eventCount + UInt64.ofNat (d.givenUp k)
  held : d'.held k + d'.givenUp k = d.held k + d.givenUp k

namespace Steady

theorem trans (h : Steady k d d') (h' : Steady k d' e) : Steady k d e where
  tallied := by
    have h1 := h.tallied
    have h2 := h'.tallied
    omega
  counted := h'.counted.trans h.counted
  held := h'.held.trans h.held

theorem of_same (h : Same k d d') : Steady k d d' where
  tallied := by rw [h.tallied, givenUp, givenUp, h.evictions]
  counted := by rw [h.eventCount, givenUp, givenUp, h.evictions]
  held := by rw [Depot.held, Depot.held, givenUp, givenUp, h.contents, h.evictions]

/-- **No change of what is held upsets a balance.** -/
theorem of_change (h : Change k d d') : Steady k d d' := by
  cases h with
  | same hsame => exact of_same hsame
  | gaveUp c pre post hledger _ _ _ hcontents hevictions heventCount htallied =>
    -- what an eviction takes from the events held it adds to those given up
    have hgiven : d'.givenUp k = d.givenUp k + (d.chunk c).events.size := by
      rw [givenUp, hevictions, List.flatten_append, List.length_append, givenUp]
      simp
    have htotal : d.held k = d'.held k + (d.chunk c).events.size := by
      rw [Depot.held, Depot.held, hcontents, contents, hledger]
      simp only [List.map_append, List.map_cons, List.flatten_append, List.flatten_cons,
        List.length_append, Array.length_toList]
      omega
    refine ⟨by rw [htallied, hgiven]; omega, ?_, by rw [hgiven, htotal]; omega⟩
    rw [heventCount, hgiven, UInt64.ofNat_add, UInt64.add_comm (UInt64.ofNat (d.givenUp k)),
      ← UInt64.add_assoc, UInt64.sub_add_cancel]
  | entered hcontents hevictions heventCount htallied =>
    refine ⟨by rw [htallied, givenUp, givenUp, hevictions],
      by rw [heventCount, givenUp, givenUp, hevictions], ?_⟩
    rw [Depot.held, Depot.held, givenUp, givenUp, hcontents, hevictions, List.flatten_append,
      List.length_append]
    rfl

theorem of_agree (h : Agree d d') : Steady k d d' := of_same (h.same k)

end Steady

theorem Owned.steady_moves (h : Owned d) (hm : Moves d d') (k : CollectorId) : Steady k d d' := by
  induction hm with
  | refl => exact .of_same ⟨rfl, rfl, rfl, rfl⟩
  | tail hmoves hm ih => exact ih.trans (.of_change ((h.moves hmoves).change hm k))

/-- Screening changes no balance. -/
theorem steady_rescreen (d : Depot) (w : WriterId) (screen : Screen) (k : CollectorId) :
    Steady k d (d.rescreen w screen) := .of_same ⟨rfl, rfl, rfl, rfl⟩

/-! ## Writes -/

/-- A session's balances after a write was tried: so many were presented, and
so many accepted. -/
structure Tried (F : List CollectorId) (k : CollectorId) (presented accepted : Nat)
    (d d' : Depot) : Prop where
  tallied : (d'.collector k).tallied + d.givenUp k + accepted =
    (d.collector k).tallied + d'.givenUp k + presented
  counted : (d'.collector k).eventCount + UInt64.ofNat (d'.givenUp k) =
    (d.collector k).eventCount + UInt64.ofNat (d.givenUp k) + UInt64.ofNat accepted
  held : k ∉ F → d'.held k + d'.givenUp k = d.held k + d.givenUp k + accepted
  held_le : d'.held k + d'.givenUp k ≤ d.held k + d.givenUp k + accepted

variable {F : List CollectorId} {p a : Nat}

namespace Tried

theorem of_steady (h : Steady k d d') : Tried F k 0 0 d d' where
  tallied := h.tallied
  counted := by
    rw [h.counted]
    exact (UInt64.add_zero _).symm
  held _ := h.held
  held_le := Nat.le_of_eq h.held

theorem after (h : Tried F k p a d' e) (h' : Steady k d d') : Tried F k p a d e where
  tallied := by
    have h1 := h.tallied
    have h2 := h'.tallied
    omega
  counted := by rw [h.counted, h'.counted]
  held hk := by rw [h.held hk, h'.held]
  held_le := by
    have h1 := h.held_le
    have h2 := h'.held
    omega

theorem then_steady (h : Tried F k p a d d') (h' : Steady k d' e) : Tried F k p a d e where
  tallied := by
    have h1 := h.tallied
    have h2 := h'.tallied
    omega
  counted := by rw [h'.counted, h.counted]
  held hk := by rw [h'.held, h.held hk]
  held_le := by
    have h1 := h.held_le
    have h2 := h'.held
    omega

/-- **A loss is tallied once.** -/
theorem of_refuses (h : Refuses j d d') (hj : j < d.collectors.size) (k : CollectorId) :
    Tried F k (if j = k then 1 else 0) 0 d d' where
  tallied := by
    rw [h.tallied, givenUp, givenUp, h.evictions]
    by_cases hjk : j = k
    · rw [if_pos hjk, if_pos ⟨hjk.symm, hj⟩]
      omega
    · rw [if_neg hjk, if_neg fun hk => hjk hk.1.symm]
      rfl
  counted := by
    rw [h.eventCount, givenUp, givenUp, h.evictions]
    exact (UInt64.add_zero _).symm
  held _ := by
    rw [Depot.held, Depot.held, givenUp, givenUp, h.toAlike.contents, h.evictions]
    rfl
  held_le := by
    rw [Depot.held, Depot.held, givenUp, givenUp, h.toAlike.contents, h.evictions]
    exact Nat.le_refl _

/-- **An accepted event is counted once** and held once, in the session of
its writer. -/
theorem of_accept (h : Posted F d) (hw : d.writer? w = some s) (hs : s.collector = some j)
    (hc : s.chunk = some c) (hfull : (d.chunk c).isFull = false) (event : Event)
    (k : CollectorId) :
    Tried F k (if j = k then 1 else 0) (if j = k then 1 else 0) d (d.accept j w c event) := by
  have hseat : Seat d w j s.thread c := ⟨s, hw, hs, rfl, hc⟩
  have hgiven : (d.accept j w c event).givenUp k = d.givenUp k := rfl
  by_cases hjk : j = k
  · subst hjk
    -- while the chunk is in its ledger; a frozen session has no ledger left
    have hheld : d.Ledgers j c → (d.accept j w c event).held j = d.held j + 1 := fun hin =>
      h.owned.length_contents_accept hin hfull j w event
    rw [if_pos rfl]
    refine ⟨by rw [tallied_accept, hgiven], ?_, ?_, ?_⟩
    · rw [hgiven, eventCount_accept (h.attached_of_seat hseat), UInt64.add_assoc,
        UInt64.add_comm 1, ← UInt64.add_assoc]
      rfl
    · intro hj
      rw [hgiven, hheld (ledgers_of_mem (h.seated w j _ c hseat hj))]
      omega
    · rw [hgiven]
      by_cases hin : d.Ledgers j c
      · rw [hheld hin]
        omega
      · rw [Depot.held, contents_accept_of_not_ledgers hin, ← Depot.held]
        omega
  · -- a writer's chunk is in no other ledger
    have hout : ¬ d.Ledgers k c := fun hin => hjk (h.own w j _ c k hseat hin).symm
    have hheld : (d.accept j w c event).held k = d.held k := by
      rw [Depot.held, contents_accept_of_not_ledgers hout, ← Depot.held]
    rw [if_neg hjk]
    refine ⟨by rw [tallied_accept, hgiven], ?_, fun _ => by rw [hgiven, hheld]; rfl,
      by rw [hgiven, hheld]; exact Nat.le_refl _⟩
    rw [hgiven, collector_accept_of_ne (Ne.symm hjk)]
    exact (UInt64.add_zero _).symm

end Tried

/-- A closed writer writes nothing. -/
theorem WriteEnds.false_of_closed {e : Emission} {now : Reading} {r : Bool × Depot}
    (hends : WriteEnds d w e now r) (hreach : d.reaches w = none) : r.1 = false := by
  cases hends with
  | closed => rfl
  | filtered => rfl
  | refused => rfl
  | written hsome => exact absurd (hreach.symm.trans hsome) (by simp)

/-- A writer's filter is that of its session. -/
theorem Posted.passesFilter_eq (h : Posted F d) (hw : d.writer? w = some s)
    (hs : s.collector = some j) (id : Int) :
    (s.screen.passesFilter id).1 = (d.collector j).options.passes id :=
  (h.honest w s j hw hs).passesFilter id

/-- What passes the tests of a writer is presented to its session, and to no
other. -/
theorem Posted.presents_iff {e : Emission} (h : Posted F d) (hreach : d.reaches w = some j)
    (hw : d.writer? w = some s) (hs : s.collector = some j)
    (hpasses : (s.screen.passesFilter e.id).1 = true) :
    d.reaches w = some k ∧ (d.collector k).options.passes e.id = true ↔ j = k := by
  rw [hreach, Option.some.injEq]
  refine ⟨And.left, ?_⟩
  rintro rfl
  exact ⟨rfl, (h.passesFilter_eq hw hs e.id).symm.trans hpasses⟩

theorem Posted.presented_iff {e : Emission} (h : Posted F d) (hreach : d.reaches w = some j)
    (hw : d.writer? w = some s) (hs : s.collector = some j)
    (hpasses : (s.screen.passesFilter e.id).1 = true) :
    (if d.reaches w = some k ∧ (d.collector k).options.passes e.id then 1 else 0) =
      if j = k then 1 else 0 :=
  if_congr (h.presents_iff hreach hw hs hpasses) rfl rfl

/-- **Every write is counted once, or not at all.** What was presented is
counted as accepted or as lost. -/
theorem Posted.tried {e : Emission} {now : Reading} {r : Bool × Depot} (h : Posted F d)
    (hends : WriteEnds d w e now r) (k : CollectorId) :
    Tried F k
      (if d.reaches w = some k ∧ (d.collector k).options.passes e.id then 1 else 0)
      (if d.reaches w = some k ∧ r.1 then 1 else 0) d r.2 := by
  cases hends with
  | closed hreach hmoves =>
    simp only [hreach, reduceCtorEq, false_and, if_false]
    exact .of_steady (h.owned.steady_moves hmoves k)
  | @filtered j s screen hreach hw hs hpasses hscreen =>
    have hfilter : (d.collector j).options.passes e.id = false :=
      (h.passesFilter_eq hw hs e.id).symm.trans hpasses
    have hnot : ¬ (d.reaches w = some k ∧ (d.collector k).options.passes e.id = true) := by
      rintro ⟨hk, hpass⟩
      rw [hreach, Option.some.injEq] at hk
      rw [← hk, hfilter] at hpass
      exact Bool.false_ne_true hpass
    rw [if_neg hnot, if_neg fun hk => Bool.false_ne_true hk.2]
    exact .of_steady (steady_rescreen d w screen k)
  | @refused j s screen d₁ d₂ d' hreach hw hs hpasses hscreen hbefore hrefuses hafter =>
    have hposted := (hscreen ▸ h.rescreen hw e now.arrival : Posted F _).moves hbefore
    have hbefore' := (steady_rescreen d w screen k).trans
      ((hscreen ▸ h.rescreen hw e now.arrival : Posted F _).owned.steady_moves hbefore k)
    have hj : j < d₁.collectors.size := by
      rw [hbefore.size]
      exact h.attached w s j hw hs
    have hafter' := (hposted.owned.alike hrefuses.toAlike).steady_moves hafter k
    have haccepted : (if d.reaches w = some k ∧ false = true then 1 else 0) = 0 :=
      if_neg fun hk => Bool.false_ne_true hk.2
    rw [h.presented_iff hreach hw hs hpasses, haccepted]
    exact ((Tried.of_refuses hrefuses hj k).after hbefore').then_steady hafter'
  | @written j s screen c d₁ d' hreach hw hs hpasses hscreen hbefore hw₁ hfull hopen hagree =>
    have hposted := (hscreen ▸ h.rescreen hw e now.arrival : Posted F _).moves hbefore
    have hbefore' := (steady_rescreen d w screen k).trans
      ((hscreen ▸ h.rescreen hw e now.arrival : Posted F _).owned.steady_moves hbefore k)
    have haccepted : (if d.reaches w = some k ∧ true = true then 1 else 0) =
        if j = k then 1 else 0 := by simp [hreach]
    rw [h.presented_iff hreach hw hs hpasses, haccepted]
    exact ((Tried.of_accept hposted hw₁ hs rfl hfull _ k).after hbefore').then_steady
      (.of_agree hagree)

end Depot

namespace Chronicle

variable {h : Chronicle} {k j : CollectorId}

/-- The session a write goes to is the one its writer came for. -/
theorem Staffed.home_of_reaches (hs : Staffed h) {w : WriterId}
    (hk : h.depot.reaches w = some k) : h.home w = some k := by
  obtain ⟨s, hw, hcollector, -⟩ := reaches_eq_some.mp hk
  rw [Chronicle.home, hs.home_eq hw hcollector]
  rfl

/-- A write is presented to the session it goes to, if that lets its id
pass. -/
theorem Staffed.presented_write (hs : Staffed h) (w : WriterId) (e : Emission) (now : Reading)
    (k : CollectorId) : (h.step (.write w e now)).presented k = h.presented k +
      if h.depot.reaches w = some k ∧ (h.depot.collector k).options.passes e.id then 1 else 0 := by
  show (h.attempts ++ [h.attempt w e now]).countP _ = _
  rw [List.countP_append, List.countP_singleton]
  congr 1
  cases hreach : h.depot.reaches w with
  | none => simp [attempt, hreach]
  | some j =>
    have hhome := hs.home_of_reaches hreach
    by_cases hjk : j = k
    · subst hjk
      simp [attempt, hreach, hhome]
    · simp [attempt, hreach, hhome, hjk]

/-- A write that is done is accepted by the session it goes to. -/
theorem Staffed.accepted_write (hs : Staffed h) (howned : Owned h.depot) (w : WriterId)
    (e : Emission) (now : Reading) (k : CollectorId) :
    (h.step (.write w e now)).accepted k = h.accepted k +
      if h.depot.reaches w = some k ∧ (h.depot.write w e now).1 then 1 else 0 := by
  show (h.attempts ++ [h.attempt w e now]).countP _ = _
  rw [List.countP_append, List.countP_singleton]
  congr 1
  cases hreach : h.depot.reaches w with
  | none => simp [attempt, (howned.writeEnds w e now).false_of_closed hreach]
  | some j => simp [attempt, hs.home_of_reaches hreach]

/-- The books of every session balance. -/
structure Balanced (h : Chronicle) : Prop where
  posted : Posted h.frozen h.depot
  staffed : Staffed h
  /-- What was presented was accepted or is tallied; what was given up is
  both. -/
  presented : ∀ k, h.presented k + h.depot.givenUp k =
    h.accepted k + (h.depot.collector k).tallied
  counted : ∀ k, UInt64.ofNat (h.accepted k) =
    (h.depot.collector k).eventCount + UInt64.ofNat (h.depot.givenUp k)
  held : ∀ k ∉ h.frozen, h.accepted k = h.depot.held k + h.depot.givenUp k
  held_le : ∀ k, h.depot.held k + h.depot.givenUp k ≤ h.accepted k

namespace Balanced

theorem start (capacity : Nat) : Balanced { depot := .ofCapacity capacity } := by
  have hcollector : ∀ k, (Depot.ofCapacity capacity).collector k = default := fun k =>
    collector_of_ge (Nat.zero_le k)
  refine ⟨.ofCapacity capacity, staffed_start capacity, ?_, ?_, ?_, ?_⟩
  · intro k
    show 0 + 0 = 0 + ((Depot.ofCapacity capacity).collector k).tallied
    rw [hcollector]
    rfl
  · intro k
    show _ = ((Depot.ofCapacity capacity).collector k).eventCount + _
    rw [hcollector]
    rfl
  · intro k _
    show 0 = ((Depot.ofCapacity capacity).contents k).flatten.length + 0
    rw [contents, hcollector]
    rfl
  · intro k
    show ((Depot.ofCapacity capacity).contents k).flatten.length + 0 ≤ 0
    rw [contents, hcollector]
    exact Nat.le_refl 0

/-- A call that tries no write and freezes nothing upsets no balance. -/
theorem quiet (hb : Balanced h) (c : Call) (hattempts : (h.step c).attempts = h.attempts)
    (hfreezes : c.freezes = []) (hsteady : ∀ k, Steady k h.depot (c.apply h.depot)) :
    Balanced (h.step c) := by
  have hfrozen : (h.step c).frozen = h.frozen := by
    show c.freezes ++ h.frozen = _
    rw [hfreezes, List.nil_append]
  have hposted := hb.posted.call c
  rw [hfreezes, List.nil_append] at hposted
  refine ⟨by rw [hfrozen]; exact hposted, hb.staffed.step hb.posted.owned c, ?_, ?_, ?_, ?_⟩
  · intro k
    have h1 := hb.presented k
    have h2 := (hsteady k).tallied
    rw [Chronicle.presented, Chronicle.accepted, hattempts, depot_step]
    unfold Chronicle.presented Chronicle.accepted at h1
    omega
  · intro k
    rw [Chronicle.accepted, hattempts, depot_step, (hsteady k).counted]
    exact hb.counted k
  · intro k hk
    rw [hfrozen] at hk
    rw [Chronicle.accepted, hattempts, depot_step, (hsteady k).held]
    exact hb.held k hk
  · intro k
    rw [Chronicle.accepted, hattempts, depot_step, (hsteady k).held]
    exact hb.held_le k

/-- **A write that is tried leaves the books balanced.** -/
theorem write (hb : Balanced h) (w : WriterId) (e : Emission) (now : Reading) :
    Balanced (h.step (.write w e now)) := by
  have hends := hb.posted.owned.writeEnds w e now
  have hpresented := hb.staffed.presented_write w e now
  have haccepted := hb.staffed.accepted_write hb.posted.owned w e now
  refine ⟨hb.posted.call _, hb.staffed.step hb.posted.owned _, ?_, ?_, ?_, ?_⟩
  · intro k
    have h1 := (hb.posted.tried hends k).tallied
    have h2 := hb.presented k
    rw [hpresented, haccepted]
    show _ + (h.depot.write w e now).2.givenUp k =
      _ + ((h.depot.write w e now).2.collector k).tallied
    omega
  · intro k
    rw [haccepted, UInt64.ofNat_add, hb.counted k]
    exact ((hb.posted.tried hends k).counted).symm
  · intro k hk
    rw [haccepted, hb.held k hk]
    exact ((hb.posted.tried hends k).held hk).symm
  · intro k
    rw [haccepted]
    have h1 := (hb.posted.tried hends k).held_le
    have h2 := hb.held_le k
    show (h.depot.write w e now).2.held k + (h.depot.write w e now).2.givenUp k ≤ _
    omega

/-- A freeze takes what is held and changes no count. -/
theorem freeze (hb : Balanced h) (k : CollectorId) : Balanced (h.step (.freeze k)) := by
  obtain ⟨-, hfrozen⟩ := freeze_spec h.depot k
  have hcount : ∀ j, ((h.depot.freeze k).2.collector j).eventCount =
      (h.depot.collector j).eventCount ∧
      ((h.depot.freeze k).2.collector j).tallied = (h.depot.collector j).tallied := by
    intro j
    by_cases hj : j = k
    · rw [hj, hfrozen.collector]
      exact ⟨rfl, rfl⟩
    · rw [hfrozen.others j hj]
      exact ⟨rfl, rfl⟩
  have hgiven : ∀ j, (h.depot.freeze k).2.givenUp j = h.depot.givenUp j := fun j => by
    rw [givenUp, hfrozen.evictions, ← givenUp]
  have hheld : ∀ j ≠ k, (h.depot.freeze k).2.held j = h.depot.held j := fun j hj => by
    rw [Depot.held, contents_freeze h.depot hj, ← Depot.held]
  -- the session frozen holds nothing, but that is no longer asked of it
  have hempty : (h.depot.freeze k).2.held k = 0 := by
    rw [Depot.held, contents, hfrozen.collector]
    rfl
  refine ⟨hb.posted.call _, hb.staffed.step hb.posted.owned _, ?_, ?_, ?_, ?_⟩
  · intro j
    show h.presented j + (h.depot.freeze k).2.givenUp j =
      h.accepted j + ((h.depot.freeze k).2.collector j).tallied
    rw [hgiven, (hcount j).2]
    exact hb.presented j
  · intro j
    show UInt64.ofNat (h.accepted j) = ((h.depot.freeze k).2.collector j).eventCount +
      UInt64.ofNat ((h.depot.freeze k).2.givenUp j)
    rw [hgiven, (hcount j).1]
    exact hb.counted j
  · intro j hj
    have hout : j ≠ k ∧ j ∉ h.frozen := by simpa [Chronicle.step, Call.freezes] using hj
    show h.accepted j = (h.depot.freeze k).2.held j + (h.depot.freeze k).2.givenUp j
    rw [hgiven, hheld j hout.1]
    exact hb.held j hout.2
  · intro j
    show (h.depot.freeze k).2.held j + (h.depot.freeze k).2.givenUp j ≤ h.accepted j
    rw [hgiven]
    have hle := hb.held_le j
    by_cases hj : j = k
    · rw [hj, hempty]
      rw [hj] at hle
      omega
    · rw [hheld j hj]
      exact hle

/-- **Every call leaves the books balanced.** -/
theorem step (hb : Balanced h) (c : Call) : Balanced (h.step c) := by
  have howned := hb.posted.owned
  cases c with
  | newCollector o =>
    refine hb.quiet _ rfl rfl ?_
    intro k
    exact .of_same ⟨contents_newCollector h.depot o k, rfl,
      congr_newCollector Collector.eventCount o rfl k, congr_newCollector Collector.tallied o rfl k⟩
  | newWriter k thread name =>
    refine hb.quiet _ rfl rfl ?_
    intro j
    dsimp only [Call.apply]
    split
    · obtain ⟨d₁, hagree, heq⟩ := newWriter_eq h.depot k thread name
      rw [heq]
      exact (Steady.of_agree hagree).trans (.of_same ⟨rfl, rfl, rfl, rfl⟩)
    · exact .of_same ⟨rfl, rfl, rfl, rfl⟩
  | write w e now => exact hb.write w e now
  | detach w => exact hb.quiet _ rfl rfl fun k => howned.steady_moves (moves_detach _ w) k
  | dropWriter w => exact hb.quiet _ rfl rfl fun k => howned.steady_moves (moves_dropWriter _ w) k
  | close k => exact hb.quiet _ rfl rfl fun j => .of_same (same_close h.depot k j)
  | closeWriters k => exact hb.quiet _ rfl rfl fun _ => .of_agree (agree_closeWriters _ k)
  | freeze k => exact hb.freeze k

/-- **The books balance after every run.** -/
theorem ofCalls (capacity : Nat) (calls : List Call) :
    Balanced (Chronicle.ofCalls capacity calls) :=
  ofCalls_induction capacity (start capacity) (fun _ c hb => hb.step c) calls

end Balanced

end Chronicle

end EventTrace
