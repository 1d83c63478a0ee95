import EventTrace.Proofs.Capture.Running
import EventTrace.Proofs.Depot.Balance
/-!
# Capture — the account of every emission

What became of every write can be read off the counts of a session: it is
among the events held, or among the losses, by their cause. Words of 64 bits
say so after any run; as long as fewer than `2 ^ 64` writes were accepted, the
numbers themselves do.
-/

namespace EventTrace

open Depot

namespace Chronicle

variable {h : Chronicle} {k : CollectorId}

namespace Balanced

/-- What was presented is in the counts of the session. -/
theorem presented_word (hb : Balanced h) (k : CollectorId) :
    UInt64.ofNat (h.presented k) =
      (h.depot.collector k).eventCount + UInt64.ofNat (h.depot.collector k).tallied := by
  have hwords := congrArg UInt64.ofNat (hb.presented k)
  rw [UInt64.ofNat_add, UInt64.ofNat_add, hb.counted k] at hwords
  -- what was given up stands on both sides
  have hcancel := congrArg (· - UInt64.ofNat (h.depot.givenUp k)) hwords
  rw [UInt64.add_sub_cancel] at hcancel
  rw [hcancel, UInt64.add_assoc, UInt64.add_comm (UInt64.ofNat (h.depot.givenUp k)),
    ← UInt64.add_assoc, UInt64.add_sub_cancel]

/-- As long as the writes accepted fit in a word, the word that counts what is
held is the number of them not given up. -/
theorem toNat_eventCount (hb : Balanced h) (hfits : h.accepted k < 2 ^ 64) :
    (h.depot.collector k).eventCount.toNat + h.depot.givenUp k = h.accepted k := by
  have hle : h.depot.givenUp k ≤ h.accepted k := by
    have := hb.held_le k
    omega
  -- no more was given up than accepted, so the difference is a number
  have hsplit : UInt64.ofNat (h.accepted k) =
      UInt64.ofNat (h.accepted k - h.depot.givenUp k) + UInt64.ofNat (h.depot.givenUp k) := by
    rw [← UInt64.ofNat_add, Nat.sub_add_cancel hle]
  have hword : (h.depot.collector k).eventCount =
      UInt64.ofNat (h.accepted k - h.depot.givenUp k) := by
    have hcancel := congrArg (· - UInt64.ofNat (h.depot.givenUp k))
      ((hb.counted k).symm.trans hsplit)
    rwa [UInt64.add_sub_cancel, UInt64.add_sub_cancel] at hcancel
  have hsmall : h.accepted k - h.depot.givenUp k < 2 ^ 64 := by omega
  rw [hword, UInt64.toNat_ofNat_of_lt' hsmall]
  omega

/-- A freeze copies what is counted as held. -/
theorem frozen_word (hb : Balanced h) (hk : k ∉ h.frozen) :
    UInt64.ofNat (h.depot.freeze k).1.flatten.length = (h.depot.collector k).eventCount := by
  rw [flatten_freeze]
  exact (hb.posted.counted k hk).symm

/-- It copies what was accepted and not given up. -/
theorem length_frozen (hb : Balanced h) (hk : k ∉ h.frozen) :
    (h.depot.freeze k).1.flatten.length + h.depot.givenUp k = h.accepted k := by
  rw [flatten_freeze]
  exact (hb.held k hk).symm

end Balanced

end Chronicle

/-- **Every emission is accounted for.** After every run, what was presented
to a session is the events counted as held and the losses together; what was
accepted is the events held and those given up with their chunks; a first
freeze copies as many events as are counted, and so does a stop. -/
theorem emissions_balance :
    (∀ (capacity : Nat) (calls : List Call) (k : CollectorId),
      let h := Chronicle.ofCalls capacity calls
      let s := h.depot.collector k
      let lost := s.losses.droppedEvents + s.losses.sampledOut + s.losses.rateLimited
      UInt64.ofNat (h.presented k) = s.eventCount + UInt64.ofNat lost ∧
      UInt64.ofNat (h.accepted k) = s.eventCount + UInt64.ofNat (h.depot.givenUp k) ∧
      h.presented k + h.depot.givenUp k = h.accepted k + lost ∧
      (h.accepted k < 2 ^ 64 →
        h.presented k = s.eventCount.toNat + lost ∧
        h.accepted k = s.eventCount.toNat + h.depot.givenUp k) ∧
      (k ∉ h.frozen →
        UInt64.ofNat (h.depot.freeze k).1.flatten.length = s.eventCount ∧
        (h.accepted k < 2 ^ 64 →
          (h.depot.freeze k).1.flatten.length = s.eventCount.toNat))) ∧
    ∀ (names : List (Option String)) (acts : List Act) (now : Int) (stopped : Recording × Capture),
      (Capture.after names acts).stop now = .ok stopped →
      ∃ live, (Capture.after names acts).session = some live ∧
        UInt64.ofNat stopped.1.eventCount =
          ((Capture.after names acts).depot.collector live.collector).eventCount := by
  refine ⟨?_, ?_⟩
  · intro capacity calls k h s lost
    have hb : h.Balanced := .ofCalls capacity calls
    have hpresented : h.presented k + h.depot.givenUp k = h.accepted k + lost := hb.presented k
    have hcount : h.accepted k < 2 ^ 64 →
        s.eventCount.toNat + h.depot.givenUp k = h.accepted k := hb.toNat_eventCount
    refine ⟨hb.presented_word k, hb.counted k, hpresented, ?_, fun hk => ⟨hb.frozen_word hk, ?_⟩⟩
    · intro hfits
      have := hcount hfits
      constructor
      · omega
      · omega
    · intro hfits
      have := hcount hfits
      have := hb.length_frozen hk
      omega
  · intro names acts now stopped hstop
    obtain ⟨F, horder⟩ := Capture.InOrder.after names acts
    obtain ⟨live, hlive, hcount⟩ := horder.counted hstop
    exact ⟨live, hlive, hcount.symm⟩

/-- Three writes by two writers of a session that may hold two events, and a
fourth after it is closed. -/
def Chronicle.threeWrites : Chronicle :=
  let e : Emission := { id := 7, kind := .instant }
  ofCalls 1 [.newCollector { maxTotalEvents := 2, policy := .dropOldest }, .newWriter 0 1 none,
    .newWriter 0 2 none, .write 0 e ⟨0, 0⟩, .write 0 e ⟨1, 1⟩, .write 1 e ⟨2, 2⟩, .close 0,
    .write 1 e ⟨3, 3⟩]

/-- A process whose one thread has emitted one event. -/
def Capture.oneEvent : Capture :=
  .after [none] [.start {} 0, .emit 0 { id := 7, kind := .instant } ⟨1, 1⟩]

/-- Of three events accepted one is given up and two are frozen; of one event
emitted one is in the recording. -/
theorem emissions_balance_threeWrites :
    (Chronicle.threeWrites.presented 0 = 3 ∧ Chronicle.threeWrites.accepted 0 = 3 ∧
      Chronicle.threeWrites.depot.givenUp 0 = 1 ∧
      (Chronicle.threeWrites.depot.freeze 0).1.flatten.length = 2) ∧
    ∃ stopped live, Capture.oneEvent.stop 5 = .ok stopped ∧
      Capture.oneEvent.session = some live ∧
      UInt64.ofNat stopped.1.eventCount =
        (Capture.oneEvent.depot.collector live.collector).eventCount := by
  have haccepted : Chronicle.threeWrites.accepted 0 = 3 := by decide
  have hfits : Chronicle.threeWrites.accepted 0 < 2 ^ 64 := by
    rw [haccepted]
    decide
  have hcount : (Chronicle.threeWrites.depot.collector 0).eventCount = 2 := by decide
  have hfrozen : (Chronicle.threeWrites.depot.freeze 0).1.flatten.length = 2 := by
    obtain ⟨-, -, -, -, hfreeze⟩ := emissions_balance.1 1 _ 0
    refine ((hfreeze (by decide)).2 hfits).trans ?_
    rw [← Chronicle.threeWrites, hcount]
    rfl
  obtain ⟨stopped, hstop⟩ : ∃ stopped, Capture.oneEvent.stop 5 = .ok stopped := by
    cases h : Capture.oneEvent.stop 5 with
    | ok stopped => exact ⟨stopped, rfl⟩
    | error cause =>
      have hok : (Capture.oneEvent.stop 5).toOption.isSome = true := by decide +kernel
      rw [h] at hok
      exact absurd hok (by simp [Except.toOption])
  obtain ⟨live, hlive, hevents⟩ := emissions_balance.2 _ _ 5 stopped hstop
  exact ⟨⟨by decide, haccepted, by decide, hfrozen⟩, stopped, live, hstop, hlive, hevents⟩

end EventTrace
