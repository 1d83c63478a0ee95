import EventTrace.Proofs.Depot.Lined
import Mathlib.Data.List.DropRight
/-!
# Depot — the newest events of a lone writer

A session that drops the oldest, with one writer, always has what that writer
wrote last. Until the writer comes the session is as it was made (`Awaiting`);
from then on its chunks stand in line, and what it gave up and then what it
holds is all that was written (`Newest`). So what it holds is an end of that,
whose length either cap bounds from below (`drop_oldest_keeps_newest`).
-/

namespace EventTrace

open Depot

namespace Depot

variable {d : Depot} {k : CollectorId} {w : WriterId} {s : Writer} {full : List ChunkId}
  {own : Option ChunkId}

/-! ## Writes -/

/-- A write that its writer's tests turn away only keeps the books. -/
theorem alike_write (hreach : d.reaches w = some k) (hw : d.writer? w = some s) {em : Emission}
    {now : Reading} (hverdict : (s.screen.screen em.id em.kind now.arrival).1 ≠ .passed) :
    (d.write w em now).1 = false ∧ Alike d (d.write w em now).2 := by
  have hscreened := fun screen => alike_rescreen d w screen
  rw [write_of_reaches hreach hw]
  dsimp only
  split
  · exact ⟨rfl, hscreened _⟩
  · exact ⟨rfl, (hscreened _).trans (refuses_recordSampledOut _ k).toAlike⟩
  · exact ⟨rfl, (hscreened _).trans (refuses_recordRateLimited _ k).toAlike⟩
  · next hpassed => exact absurd hpassed hverdict

/-- **A write that passes its writer's tests is done**: the line stays a line,
and the event is its last. -/
theorem Lined.write (h : Lined d k w full own) (hk : k < d.collectors.size)
    (hreach : d.reaches w = some k) (hw : d.writer? w = some s)
    (ho : (d.collector k).options.Rolls d.capacity) {em : Emission} {now : Reading}
    (hverdict : (s.screen.screen em.id em.kind now.arrival).1 = .passed) :
    (d.write w em now).1 = true ∧
    (∃ rest c, Lined (d.write w em now).2 k w rest (some c)) ∧
    (∃ c screen, (d.write w em now).2.writer? w =
      some { s with chunk := c, screen, sequence := s.sequence + 1 }) ∧
    (d.write w em now).2.kept k = d.kept k ++ [s.stamped em now.stamp] ∧
    ∀ b, (d.collector k).options.Leaves d.capacity b →
      min (d.held k + 1) b ≤ (d.write w em now).2.held k := by
  obtain ⟨r, hr, hs, -⟩ := reaches_eq_some.mp hreach
  obtain rfl : s = r := Option.some.inj (hw.symm.trans hr)
  have halike := alike_rescreen d w (s.screen.screen em.id em.kind now.arrival).2
  have hw' := writer?_rescreen hw (s.screen.screen em.id em.kind now.arrival).2
  have hwrite : d.write w em now =
      (d.rescreen w (s.screen.screen em.id em.kind now.arrival).2).place w k em now.stamp := by
    rw [write_of_reaches hreach hw]
    simp only [hverdict]
  obtain ⟨d', rest, c, hplace, hlined, hkept, hheld⟩ :=
    (h.alike halike).place hk hw' hs ho em now.stamp
  rw [hwrite, hplace]
  refine ⟨rfl, ⟨rest, c, hlined⟩, ?_, hkept, hheld⟩
  obtain ⟨d₁, x, -, hw₁, -, -, -, hagree⟩ :=
    (h.alike halike).owned.place_true hw' hs h.opened hplace
  refine ⟨some x, (s.screen.screen em.id em.kind now.arrival).2, ?_⟩
  rw [hagree.writer?_eq, writer?_accept, hw₁]
  rfl

end Depot

namespace Chronicle

variable {h : Chronicle} {k : CollectorId} {w : WriterId}

/-! ## Who is on record -/

/-- Whoever belongs to a session stays there. -/
theorem home_step (hw : h.home w = some k) (c : Call) : (h.step c).home w = some k := by
  rcases enrolled_step_cases h c w with hsame | ⟨-, -, -, -, -, rfl⟩
  · rwa [home, hsame]
  · rw [home_newcomer] at hw
    exact absurd hw (by simp)

/-- Only a writer's own writes are its writes. -/
theorem writesOf_step {c : Call} (hc : ∀ em now, c ≠ .write w em now) :
    (h.step c).writesOf w = h.writesOf w := by
  cases c with
  | write v em now =>
    have hne : w ≠ v := fun heq => hc em now (by rw [heq])
    rw [Faithful.writesOf_write, if_neg fun hboth => hne hboth.1, List.append_nil]
  | _ => rfl

theorem written_step (hw : h.home w = some k) {c : Call} (hc : ∀ em now, c ≠ .write w em now) :
    (h.step c).written w = h.written w := by
  have hsame : (h.step c).enrolled[w]? = h.enrolled[w]? := by
    rcases enrolled_step_cases h c w with hsame | ⟨-, -, -, -, -, rfl⟩
    · exact hsame
    · rw [home_newcomer] at hw
      exact absurd hw (by simp)
  rw [written, written, threadOf, threadOf, writesOf_step hc, hsame]

/-! ## Before the writer comes -/

/-- A session is as it was made, and the writer it is for wrote nothing. -/
structure Awaiting (h : Chronicle) (w : WriterId) (k : CollectorId) : Prop where
  session : ∃ o, h.depot.collector k = { options := o }
  evictions : h.depot.evictions k = []
  writes : h.writesOf w = []

/-- What others do leaves it so. -/
theorem Awaiting.untouched (ha : Awaiting h w k) {c : Call}
    (hsame : Untouched w k h.depot (h.step c).depot) (hc : ∀ em now, c ≠ .write w em now) :
    Awaiting (h.step c) w k where
  session := by rw [hsame.collector]; exact ha.session
  evictions := hsame.evictions.trans ha.evictions
  writes := (writesOf_step hc).trans ha.writes

/-! ## From then on -/

/-- The chunks of a session stand in line, its only writer is there, and what
the session gave up and then what it holds is what the writer wrote; so much of
it is held as the caps leave. -/
structure Newest (h : Chronicle) (w : WriterId) (k : CollectorId) : Prop where
  line : ∃ full own, Lined h.depot k w full own
  seat : ∃ s, h.depot.writer? w = some s ∧ s.collector = some k ∧
    s.sequence = (h.written w).length ∧ h.depot.isLinkClosed s.link = false
  kept : h.depot.kept k = h.written w
  held : ∀ b, (h.depot.collector k).options.Leaves h.depot.capacity b →
    min (h.written w).length b ≤ h.depot.held k

namespace Newest

/-- The writer's writes go to the session. -/
theorem reaches (hn : Newest h w k) : h.depot.reaches w = some k := by
  obtain ⟨s, hw, hs, -, hlink⟩ := hn.seat
  obtain ⟨full, own, hlined⟩ := hn.line
  exact reaches_eq_some.mpr ⟨s, hw, hs, by simp [isWriterClosed, hs, hlink, hlined.opened]⟩

/-- What others do leaves it so. -/
theorem untouched (hn : Newest h w k) (hw : h.home w = some k) {c : Call}
    (hsame : Untouched w k h.depot (h.step c).depot) (hc : ∀ em now, c ≠ .write w em now)
    (howned : Owned (h.step c).depot) : Newest (h.step c) w k := by
  have hwritten := written_step hw hc
  have hcontents := hsame.contents
  have hheld : (h.step c).depot.held k = h.depot.held k := by
    rw [Depot.held, hcontents, ← Depot.held]
  obtain ⟨full, own, hlined⟩ := hn.line
  obtain ⟨s, hs, hcollector, hsequence, hlink⟩ := hn.seat
  refine ⟨⟨full, own, ?_⟩, ⟨s, hsame.writer.trans hs, hcollector, ?_, ?_⟩, ?_, ?_⟩
  · exact hlined.congr howned hsame.capacity (by rw [hsame.collector]) (by rw [hsame.writer])
      hsame.chunk
  · rw [hwritten, hsequence]
  · rw [hsame.flag s hs, hlink]
  · rw [hwritten, Depot.kept, hcontents, hsame.evictions, ← Depot.kept, hn.kept]
  · rw [hwritten, hheld, hsame.collector, hsame.capacity]
    exact hn.held

/-- **A writer that comes finds its session as it was made.** -/
theorem newcomer (ha : Awaiting h h.enrolled.length k) (hs : Staffed h)
    (hk : k < h.depot.collectors.size) (thread : Int) (name : Option String)
    (howned : Owned (h.step (.newWriter k thread name)).depot) :
    Newest (h.step (.newWriter k thread name)) h.enrolled.length k := by
  have hdepot := depot_newWriter hk thread name
  have hwritten : (h.step (.newWriter k thread name)).written h.enrolled.length = [] := by
    rw [written, writesOf_step (by simp), ha.writes]
    rfl
  obtain ⟨o, ho⟩ := ha.session
  obtain ⟨hw, hlink⟩ := writer?_newWriter h.depot k thread name
  have hsolo := solo_newWriter h.depot k thread name
  obtain ⟨d₁, hagree, heq⟩ := newWriter_eq h.depot k thread name
  have hcollector : (h.depot.newWriter k thread name).2.collector k = d₁.collector k := by
    rw [heq]
    rfl
  have hledger : ((h.depot.newWriter k thread name).2.collector k).ledger = [] := by
    rw [hcollector, hagree.ledger, ho]
  have hcontents : (h.depot.newWriter k thread name).2.contents k = [] := by
    rw [contents, hledger, List.map_nil]
  rw [← hs.length, ← hdepot] at hw
  refine ⟨⟨[], none, ?_⟩, ⟨_, hw, rfl, ?_, ?_⟩, ?_, fun b _ => ?_⟩
  · refine ⟨howned, ?_, ?_, ?_, ?_, ?_, fun x hx => absurd hx List.not_mem_nil,
      fun x hx => absurd hx (by simp)⟩
    · rw [hdepot, hcollector, hagree.closed, ho]
    · have hmade : (h.depot.collector k).Slotted := by
        rw [ho]
        exact .new o
      rw [hdepot, hcollector]
      exact hmade.congr (hagree.slots k)
    · rw [hdepot, hcollector, hagree.eventCount, ho, Depot.held, hcontents]
      rfl
    · rw [hw]
      rfl
    · rw [hdepot, hledger]
      rfl
  · rw [hwritten]
    rfl
  · rw [hdepot, hlink]
  · rw [hdepot, Depot.kept, hsolo.evictions, ha.evictions, hcontents, hwritten]
    rfl
  · rw [hwritten, List.length_nil, Nat.zero_min]
    exact Nat.zero_le _

/-- What is held of all that was written is its end. -/
theorem suffix (hn : Newest h w k) : (h.depot.contents k).flatten <:+ h.written w :=
  ⟨(h.depot.evictions k).flatten, hn.kept⟩

/-- A write leaves the options of its session, the depot's capacity and all
flags. -/
theorem steady_write (hn : Newest h w k) {log : WriterId → List Screening} (hd : Drawn h log)
    (em : Emission) (now : Reading) :
    ((h.depot.write w em now).2.collector k).options = (h.depot.collector k).options ∧
      (h.depot.write w em now).2.capacity = h.depot.capacity ∧
      ∀ l, (h.depot.write w em now).2.isLinkClosed l = h.depot.isLinkClosed l := by
  have hsecluded := hd.posted.secluded_write hn.reaches em now
  refine ⟨hd.options_call (.write w em now) (hd.staffed.home_of_reaches hn.reaches),
    hsecluded.capacity, fun l => ?_⟩
  rw [isLinkClosed, hsecluded.links, ← isLinkClosed]

/-- **What passes the writer's tests is held**, as its last event. -/
theorem write_passed (hn : Newest h w k) {log : WriterId → List Screening} (hd : Drawn h log)
    (ho : (h.depot.collector k).options.Rolls h.depot.capacity) {em : Emission}
    {now : Reading} {s : Writer} (hw : h.depot.writer? w = some s)
    (hcollector : s.collector = some k) (hsequence : s.sequence = (h.written w).length)
    (hlink : h.depot.isLinkClosed s.link = false)
    (hverdict : (s.screen.screen em.id em.kind now.arrival).1 = .passed) :
    Newest (h.step (.write w em now)) w k := by
  obtain ⟨full, own, hlined⟩ := hn.line
  obtain ⟨hoptions, hcapacity, hflag⟩ := hn.steady_write hd em now
  have hk := hd.posted.attached w s k hw hcollector
  obtain ⟨hdone, ⟨rest, c, hlined'⟩, ⟨x, screen, hw'⟩, hkept, hheld⟩ :=
    hlined.write hk hn.reaches hw ho hverdict
  have hwritten : (h.step (.write w em now)).written w =
      h.written w ++ [s.stamped em now.stamp] := by
    have hrecord := hd.staffed.home_eq hw hcollector
    rw [Faithful.written_write h hdone, if_pos rfl, Faithful.event_attempt hrecord hsequence]
  refine ⟨⟨rest, some c, hlined'⟩, ⟨_, hw', hcollector, ?_, (hflag _).trans hlink⟩, ?_,
    fun b hb => ?_⟩
  · rw [hwritten, List.length_append, hsequence]
    rfl
  · rw [hwritten, ← hn.kept]
    exact hkept
  · rw [depot_step, Call.apply, hoptions, hcapacity] at hb
    have hbefore := hn.held b hb
    have hafter := hheld b hb
    rw [hwritten, List.length_append, List.length_singleton]
    refine Nat.le_trans ?_ hafter
    omega

/-- What does not pass them leaves what was written and what is held. -/
theorem write_turned (hn : Newest h w k) {log : WriterId → List Screening} (hd : Drawn h log)
    {em : Emission} {now : Reading} {s : Writer} (hw : h.depot.writer? w = some s)
    (hcollector : s.collector = some k) (hsequence : s.sequence = (h.written w).length)
    (hlink : h.depot.isLinkClosed s.link = false)
    (hverdict : (s.screen.screen em.id em.kind now.arrival).1 ≠ .passed) :
    Newest (h.step (.write w em now)) w k := by
  obtain ⟨full, own, hlined⟩ := hn.line
  obtain ⟨hoptions, hcapacity, hflag⟩ := hn.steady_write hd em now
  obtain ⟨hrefused, halike⟩ := alike_write hn.reaches hw hverdict
  have hwritten : (h.step (.write w em now)).written w = h.written w := by
    have hwrites : (h.step (.write w em now)).writesOf w = h.writesOf w := by
      rw [Faithful.writesOf_write, hrefused]
      simp
    rw [written, hwrites]
    rfl
  obtain ⟨s', hw', hcore⟩ := halike.symm.writer? hw
  -- the writer's tests may have learned; all else of it is as it was
  have hlink' := congrArg Writer.link hcore
  have hcollector' := congrArg Writer.collector hcore
  have hsequence' := congrArg Writer.sequence hcore
  have hheld : (h.depot.write w em now).2.held k = h.depot.held k := by
    rw [Depot.held, halike.contents, ← Depot.held]
  refine ⟨⟨full, own, hlined.alike halike⟩,
    ⟨s', hw', hcollector'.trans hcollector, hsequence'.trans ?_, ?_⟩, ?_, fun b hb => ?_⟩
  · rw [hwritten, Writer.core_sequence, hsequence]
  · exact (congrArg _ hlink').trans ((hflag _).trans hlink)
  · rw [hwritten, ← hn.kept, depot_step, Call.apply, Depot.kept, halike.contents,
      halike.evictions, ← Depot.kept]
  · rw [depot_step, Call.apply, hoptions, hcapacity] at hb
    rw [hwritten, depot_step, Call.apply, hheld]
    exact hn.held b hb

/-- **After each of the writer's writes** the session holds the newest of what
it wrote. -/
theorem write (hn : Newest h w k) {log : WriterId → List Screening} (hd : Drawn h log)
    (ho : (h.depot.collector k).options.Rolls h.depot.capacity) (em : Emission)
    (now : Reading) : Newest (h.step (.write w em now)) w k := by
  obtain ⟨s, hw, hcollector, hsequence, hlink⟩ := hn.seat
  by_cases hverdict : (s.screen.screen em.id em.kind now.arrival).1 = .passed
  · exact hn.write_passed hd ho hw hcollector hsequence hlink hverdict
  · exact hn.write_turned hd hw hcollector hsequence hlink hverdict

end Newest

/-! ## Runs -/

/-- In every run flags are with their writers. -/
theorem Linked.ofCalls (capacity : Nat) (calls : List Call) :
    Linked (Chronicle.ofCalls capacity calls) := by
  induction calls using List.reverseRecOn with
  | nil => exact .start capacity
  | append_singleton calls c ih =>
    have hd := Drawn.ofCalls capacity calls
    have hrun := ofCalls_concat capacity calls c
    rw [hrun]
    exact ih.step hd.staffed hd.posted c

theorem capacity_ofCalls (capacity : Nat) (calls : List Call) :
    (ofCalls capacity calls).depot.capacity = max capacity 1 := by
  induction calls using List.reverseRecOn with
  | nil => rfl
  | append_singleton calls c ih =>
    have hrun := ofCalls_concat capacity calls c
    rw [hrun, depot_step, (Drawn.ofCalls capacity calls).posted.capacity_call, ih]

/-- What a call leaves of a session that awaits its writer: it still does, or
the writer has come. -/
theorem Awaiting.step (ha : Awaiting h w k) {log : WriterId → List Screening}
    (hd : Drawn h log) (hl : Linked h) {c : Call} (hends : c.ends w k = false)
    (hw : h.home w = none) (howned : Owned (h.step c).depot)
    (hplace : ∀ j, (h.step c).home w = some j → j = k)
    (hlone : ∀ v, (h.step c).home v = some k → v = w) :
    ((h.step c).home w = none ∧ Awaiting (h.step c) w k) ∨
      ((h.step c).home w = some k ∧ Newest (h.step c) w k) := by
  rcases enrolled_step_cases h c w with hsame | ⟨j, thread, name, rfl, hj, rfl⟩
  · have hhome : (h.step c).home w = h.home w := congrArg (Option.map Prod.fst) hsame
    refine .inl ⟨hhome.trans hw, ?_⟩
    by_cases hwrite : ∃ em now, c = .write w em now
    · obtain ⟨em, now, rfl⟩ := hwrite
      have hwriter : h.depot.writer? w = none := by
        refine Option.eq_none_iff_forall_ne_some.mpr fun s hs => ?_
        obtain ⟨j, hj, -⟩ := hd.staffed.home w s hs
        rw [home, hj] at hw
        exact absurd hw (by simp)
      have hresult : h.depot.write w em now = (false, h.depot) := by
        simp [Depot.write, hwriter]
      have hdepot : (h.step (.write w em now)).depot = h.depot := congrArg Prod.snd hresult
      refine ⟨hdepot ▸ ha.session, hdepot ▸ ha.evictions, ?_⟩
      rw [Faithful.writesOf_write, hresult, ha.writes]
      simp
    · have hwrite : ∀ em now, c ≠ .write w em now := fun em now heq => hwrite ⟨em, now, heq⟩
      by_cases hnew : ∃ o, c = .newCollector o ∧ k = h.depot.collectors.size
      · obtain ⟨o, rfl, rfl⟩ := hnew
        exact ⟨⟨o, collector_newCollector h.depot o⟩, ha.evictions, ha.writes⟩
      · refine ha.untouched (hl.untouched hd.staffed hd.posted hends ?_ hwrite hhome ?_ hlone)
          hwrite
        · exact fun o heq hk => hnew ⟨o, heq, hk⟩
        · intro j hj
          exact absurd (hw.symm.trans hj) (by simp)
  · have hcame := home_newWriter hj thread name
    obtain rfl := hplace j hcame
    exact .inr ⟨hcame, .newcomer ha hd.staffed hj thread name howned⟩

/-- What a call leaves of a session with its writer. -/
theorem Newest.step (hn : Newest h w k) {log : WriterId → List Screening} (hd : Drawn h log)
    (hl : Linked h) {c : Call} (hends : c.ends w k = false) (hw : h.home w = some k)
    (howned : Owned (h.step c).depot)
    (ho : (h.depot.collector k).options.Rolls h.depot.capacity)
    (hlone : ∀ v, (h.step c).home v = some k → v = w) : Newest (h.step c) w k := by
  by_cases hwrite : ∃ em now, c = .write w em now
  · obtain ⟨em, now, rfl⟩ := hwrite
    exact hn.write hd ho em now
  · have hwrite : ∀ em now, c ≠ .write w em now := fun em now heq => hwrite ⟨em, now, heq⟩
    refine hn.untouched hw (hl.untouched hd.staffed hd.posted hends ?_ hwrite ?_ ?_ hlone)
      hwrite howned
    · exact fun o _ => Nat.ne_of_lt (hd.placed w k hw)
    · rw [hw, home_step hw]
    · intro j hj
      exact Option.some.inj (hj.symm.trans hw)

/-- **In every run a session awaits its only writer, and from then on holds the
newest of its events**, until a call ends that. -/
theorem newest_ofCalls (capacity : Nat) {calls : List Call}
    (hends : ∀ c ∈ calls, c.ends w k = false)
    (hplace : ∀ j, (ofCalls capacity calls).home w = some j → j = k)
    (hlone : ∀ v, (ofCalls capacity calls).home v = some k → v = w) :
    let h := ofCalls capacity calls
    (h.home w = none → Awaiting h w k) ∧ (h.home w = some k →
      (h.depot.collector k).options.Rolls (max capacity 1) → Newest h w k) := by
  induction calls using List.reverseRecOn with
  | nil =>
    refine ⟨fun _ => ⟨⟨{}, collector_of_ge (Nat.zero_le k)⟩, rfl, rfl⟩, fun hw => ?_⟩
    exact absurd hw (by simp [Chronicle.ofCalls, home])
  | append_singleton calls c ih =>
    have hrun := ofCalls_concat capacity calls c
    have hd := Drawn.ofCalls capacity calls
    have hl := Linked.ofCalls capacity calls
    have hcapacity := capacity_ofCalls capacity calls
    have howned := (Drawn.ofCalls capacity (calls ++ [c])).posted.owned
    have hc := hends c (by simp)
    rw [hrun] at hplace hlone howned ⊢
    obtain ⟨hawaiting, hnewest⟩ := ih (fun c hc => hends c (by simp [hc]))
      (fun j hj => hplace j (home_step hj c)) fun v hv => hlone v (home_step hv c)
    cases hw : (ofCalls capacity calls).home w with
    | none =>
      rcases (hawaiting hw).step hd hl hc hw howned hplace hlone with
        ⟨hnone, ha⟩ | ⟨hsome, hn⟩
      · exact ⟨fun _ => ha, fun hk => absurd (hnone.symm.trans hk) (by simp)⟩
      · exact ⟨fun hnone => absurd (hsome.symm.trans hnone) (by simp), fun _ _ => hn⟩
    | some j =>
      obtain rfl := hplace j (home_step hw c)
      refine ⟨fun hnone => absurd ((home_step hw c).symm.trans hnone) (by simp), fun _ ho => ?_⟩
      have hoptions := hd.options_call c hw
      rw [depot_step, hoptions] at ho
      exact (hnewest hw ho).step hd hl hc hw howned (by rwa [hcapacity]) hlone

/-- An event cap that is short of the word is kept until the session is
frozen. -/
theorem held_le_maxTotalEvents (capacity : Nat) {calls : List Call} (hk : .freeze k ∉ calls) :
    let d := (ofCalls capacity calls).depot
    (d.collector k).options.maxTotalEvents ≠ 0 →
      (d.collector k).options.maxTotalEvents < 2 ^ 64 →
      d.held k ≤ (d.collector k).options.maxTotalEvents := by
  intro d hmax hword
  have hrun : d = runOps capacity (calls.map .call) := by
    rw [runOps, List.foldl_map]
    exact depot_ofCalls capacity calls
  obtain ⟨frozen, _, hstocked, hfrozen, -⟩ :=
    stocked_runOps capacity (throughWriters_calls calls)
  have hout : k ∉ frozen := fun hin => hk (freeze_mem_calls.mp (hfrozen k hin))
  obtain ⟨m, -, hcovers⟩ := hstocked.covered k hout
  rw [← hrun] at hcovers
  exact hcovers.held_le.trans (hcovers.cap hmax hword)

namespace Newest

/-- The last event written is held: of one event at least either cap leaves
room. -/
theorem getLast? (hn : Newest h w k) :
    (h.depot.contents k).flatten.getLast? = (h.written w).getLast? := by
  obtain ⟨given, hgiven⟩ := hn.suffix
  have hone := hn.held 1 ⟨fun _ => by omega, fun _ => by omega⟩
  rw [← hgiven, List.getLast?_append]
  cases hlast : (h.depot.contents k).flatten.getLast? with
  | some e => rfl
  | none =>
    rw [List.getLast?_eq_none_iff] at hlast
    rw [Depot.held, ← hgiven, hlast, List.append_nil, List.length_nil] at hone
    obtain rfl : given = [] := List.length_eq_zero_iff.mp (by omega)
    rfl

/-- Without a rate limit, what gets past filter and sampling is written. -/
theorem write_eq_keeps (hn : Newest h w k) {log : WriterId → List Screening} (hd : Drawn h log)
    (ho : (h.depot.collector k).options.Rolls h.depot.capacity)
    (hrate : (h.depot.collector k).options.maxEventsPerSecond = 0) (em : Emission)
    (now : Reading) : ∃ s, h.depot.writer? w = some s ∧
      (h.depot.write w em now).1 = (s.screen.screen em.id em.kind now.arrival).1.keeps := by
  obtain ⟨s, hw, hcollector, -, -⟩ := hn.seat
  obtain ⟨full, own, hlined⟩ := hn.line
  refine ⟨s, hw, ?_⟩
  cases hverdict : (s.screen.screen em.id em.kind now.arrival).1 with
  | passed =>
    exact (hlined.write (hd.posted.attached w s k hw hcollector) hn.reaches hw ho hverdict).1
  | filtered | sampledOut => exact (alike_write hn.reaches hw (by simp [hverdict])).1
  | rateLimited =>
    have hlimit := (hd.tracks w s k hw hcollector).2
    have hpositive := (Screen.full_of_rateLimited hverdict).1
    omega

end Newest

end Chronicle

/-- **Dropping the oldest keeps the newest of a lone writer.** Let a session
that drops the oldest have one writer, no rate limit, and no event cap or one of
a chunk at least, and let neither be closed, detached or frozen. Every write
that gets past filter and sampling is done, so the last event written is held.
What is held is the last of what was written, as much of it as is counted, as
long as the count does not overflow its word. Of all that was written at least
so many events are held, or all: under an event cap alone, the cap less a chunk
and one more; under a chunk cap alone, its chunks but one and one event more. -/
theorem drop_oldest_keeps_newest (capacity : Nat) {calls : List Call} {w : WriterId}
    {k : CollectorId} (hw : (Chronicle.ofCalls capacity calls).home w = some k)
    (hlone : ∀ v, (Chronicle.ofCalls capacity calls).home v = some k → v = w)
    (hends : ∀ c ∈ calls, c.ends w k = false) :
    let h := Chronicle.ofCalls capacity calls
    let s := h.depot.collector k
    let o := s.options
    let size := max capacity 1
    let held := (h.depot.contents k).flatten
    let n := (h.written w).length
    o.policy = .dropOldest → o.maxTotalEvents = 0 ∨ size ≤ o.maxTotalEvents →
      o.maxEventsPerSecond = 0 →
    (∀ em now, ∃ r, h.depot.writer? w = some r ∧
      (h.depot.write w em now).1 = (r.screen.screen em.id em.kind now.arrival).1.keeps) ∧
    held.getLast? = (h.written w).getLast? ∧
    (held <:+ h.written w ∧ s.eventCount = UInt64.ofNat held.length ∧
      ((o.maxTotalEvents ≠ 0 ∧ o.maxTotalEvents < 2 ^ 64) ∨ held.length < 2 ^ 64 →
        held = (h.written w).rtake s.eventCount.toNat)) ∧
    (o.maxTotalEvents ≠ 0 → o.maxTotalChunks = 0 →
      min n (o.maxTotalEvents - size + 1) ≤ held.length) ∧
    (o.maxTotalEvents = 0 → o.maxTotalChunks ≠ 0 →
      min n ((o.maxTotalChunks - 1) * size + 1) ≤ held.length) := by
  intro h s o size held n hpolicy hcap hrate
  have hd := Chronicle.Drawn.ofCalls capacity calls
  have hsize : h.depot.capacity = size := Chronicle.capacity_ofCalls capacity calls
  have hplace : ∀ j, h.home w = some j → j = k := fun j hj =>
    Option.some.inj (hj.symm.trans hw)
  have ho : o.Rolls h.depot.capacity := ⟨hpolicy, by rwa [hsize]⟩
  have hn : h.Newest w k :=
    (Chronicle.newest_ofCalls capacity hends hplace hlone).2 hw ⟨hpolicy, hcap⟩
  have hheld := hn.held
  rw [hsize] at hheld
  refine ⟨hn.write_eq_keeps hd ho hrate, hn.getLast?, ⟨hn.suffix, ?_, fun hword => ?_⟩,
    fun hevents hchunks => hheld _ ⟨fun _ => Nat.le_refl _, fun hmax => absurd hchunks hmax⟩,
    fun hevents hchunks => hheld _ ⟨fun hmax => absurd hevents hmax, fun _ => Nat.le_refl _⟩⟩
  · obtain ⟨full, own, hlined⟩ := hn.line
    exact hlined.counted
  · obtain ⟨full, own, hlined⟩ := hn.line
    have hcount : s.eventCount = UInt64.ofNat held.length := hlined.counted
    have hkept : .freeze k ∉ calls := fun hin => by simpa [Call.ends] using hends _ hin
    have hlt : held.length < 2 ^ 64 := by
      rcases hword with ⟨hmax, hlt⟩ | hlt
      · exact Nat.lt_of_le_of_lt (Chronicle.held_le_maxTotalEvents capacity hkept hmax hlt) hlt
      · exact hlt
    rw [hcount, UInt64.toNat_ofNat', Nat.mod_eq_of_lt hlt]
    exact List.suffix_iff_eq_drop.mp hn.suffix

namespace Call

/-- Six writes in a session that may hold three events, in chunks of two. -/
def sixWrites : List Call :=
  let e : Emission := { id := 7, kind := .instant }
  [.newCollector { maxTotalEvents := 3, policy := .dropOldest }, .newWriter 0 1 none,
    .write 0 e ⟨0, 0⟩, .write 0 e ⟨1, 1⟩, .write 0 e ⟨2, 2⟩, .write 0 e ⟨3, 3⟩,
    .write 0 e ⟨4, 4⟩, .write 0 e ⟨5, 5⟩]

end Call

/-- The fourth write and the sixth give up a chunk each, and the last two
events are held: no more than the caps leave. -/
theorem drop_oldest_keeps_newest_sixWrites :
    let h := Chronicle.ofCalls 2 Call.sixWrites
    let held := (h.depot.contents 0).flatten
    (h.written 0).length = 6 ∧ held = (h.written 0).rtake 2 ∧ min 6 (3 - 2 + 1) ≤ held.length ∧
      held.length = 2 := by
  intro h held
  have hw : h.home 0 = some 0 := by decide
  have hlone : ∀ v, h.home v = some 0 → v = 0 := by
    have henrolled : h.enrolled = [(0, 1)] := by decide
    intro v hv
    cases v with
    | zero => rfl
    | succ v =>
      rw [Chronicle.home, henrolled] at hv
      exact absurd hv (by simp)
  obtain ⟨-, -, ⟨-, -, hlast⟩, hevents, -⟩ :=
    drop_oldest_keeps_newest 2 hw hlone (by decide) (by decide) (by decide) (by decide)
  exact ⟨by decide, hlast (.inl (by decide)), hevents (by decide) (by decide), by decide⟩

end EventTrace
