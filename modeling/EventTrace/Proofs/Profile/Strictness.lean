import EventTrace.Proofs.Profile.Outcomes
/-!
# Profile — strict and searching matching part at mismatched ends only

Whether an end is mismatched is up to the innermost open frame, not to what is
done about it, and an end that is not mismatched is dealt with in the same way
under either policy (`ThreadState.step_eq_of_matched`). So the two replays of a
thread run in step up to its first mismatched end, and tell of that end in the
same words (`Replay.exists_parting`); where no thread has one they are the same
replay (`Replay.run_eq_of_matched`).
-/

namespace EventTrace

/-! ## One end -/

namespace Nesting

variable {α : Type}

/-- A mismatch is told by the innermost frame alone. -/
theorem expected_close_eq_some {strict : Bool} {id expected : Int} {frames : List (Frame α)} :
    (close strict id frames).expected = some expected ↔
      ∃ top, frames.head? = some top ∧ top.id ≠ id ∧ expected = top.id := by
  cases frames with
  | nil => simp [close]
  | cons top below =>
    by_cases htop : top.id = id
    · simp [close, htop]
    · have hexpected : (close strict id (top :: below)).expected = some top.id := by
        rw [close, if_neg htop]
        cases strict with
        | true => rfl
        | false =>
          rw [if_neg Bool.false_ne_true]
          split
          · rfl
          · rfl
      rw [hexpected, Option.some.injEq]
      constructor
      · rintro rfl
        exact ⟨top, rfl, htop, rfl⟩
      · rintro ⟨_, hhead, -, rfl⟩
        rw [Option.some.inj hhead]

/-- An end that is not mismatched closes the same under either policy. -/
theorem close_eq_of_matched {strict : Bool} {id : Int} {frames : List (Frame α)}
    (h : (close strict id frames).expected = none) (strict' : Bool) :
    close strict' id frames = close strict id frames := by
  cases frames with
  | nil => rfl
  | cons top below =>
    have htop : top.id = id := by
      by_contra htop
      rw [expected_close_eq_some.mpr ⟨top, rfl, htop, rfl⟩] at h
      exact nomatch h
    rw [close, close, if_pos htop, if_pos htop]

end Nesting

/-! ## One event -/

namespace ThreadState

variable {s : ThreadState} {e : Event} {strict : Bool} {m : Mismatch}

theorem mismatch_close (strict : Bool) (s : ThreadState) (e : Event) :
    (s.close strict e).2.mismatch = (Nesting.close strict e.id s.frames).expected.map
      fun expected => ⟨e.thread, expected, e.id, e.timestamp⟩ := by
  unfold close
  dsimp only
  split
  · rfl
  · rfl

/-- **A mismatched end is one of another id than the innermost frame**, and it
is told with both ids. -/
theorem mismatch_step_eq_some : (s.step strict e).2.mismatch = some m ↔
    e.kind = .scopeEnd ∧ ∃ top, s.frames.head? = some top ∧ top.id ≠ e.id ∧
      m = ⟨e.thread, top.id, e.id, e.timestamp⟩ := by
  cases hkind : e.kind with
  | scopeEnd =>
    have hstep : s.step strict e = s.close strict e := by simp [step, hkind]
    rw [hstep, mismatch_close, Option.map_eq_some_iff]
    simp only [Nesting.expected_close_eq_some]
    constructor
    · rintro ⟨_, ⟨top, htop, hne, rfl⟩, rfl⟩
      exact ⟨trivial, top, htop, hne, rfl⟩
    · rintro ⟨-, top, htop, hne, rfl⟩
      exact ⟨_, ⟨top, htop, hne, rfl⟩, rfl⟩
  | _ => simp [step, hkind]

/-- An end is mismatched under either policy or under none. -/
theorem mismatch_step (strict strict' : Bool) (s : ThreadState) (e : Event) :
    (s.step strict' e).2.mismatch = (s.step strict e).2.mismatch := by
  refine Option.ext fun m => ?_
  rw [mismatch_step_eq_some, mismatch_step_eq_some]

/-- **An event that is no mismatched end does the same under either
policy.** -/
theorem step_eq_of_matched (h : (s.step strict e).2.mismatch = none) (strict' : Bool) :
    s.step strict' e = s.step strict e := by
  cases hkind : e.kind with
  | scopeEnd =>
    have hstep : ∀ strict, s.step strict e = s.close strict e := fun strict => by
      simp [step, hkind]
    rw [hstep, mismatch_close, Option.map_eq_none_iff] at h
    rw [hstep, hstep, close, close, Nesting.close_eq_of_matched h strict']
  | _ => simp [step, hkind]

end ThreadState

/-! ## All events -/

namespace Replay

variable {strict : Bool} {events before : List Event} {t : Int} {m : Mismatch}

/-- No event of a thread is a mismatched end. -/
def Matched (strict : Bool) (t : Int) (events : List Event) : Prop :=
  ∀ f ∈ findings strict events, f.1 = t → f.2.mismatch = none

/-- A thread comes to one state under either policy, and event by event the
same is found on the way. -/
structure Alike (t : Int) (events : List Event) : Prop where
  /-- The same open frames, each with the nodes it holds, and the same roots. -/
  state : (run true events).threads.get? t = (run false events).threads.get? t
  /-- The same damage and the same closed scopes. -/
  findings : (findings true events).filter (·.1 == t) = (findings false events).filter (·.1 == t)

/-- An event of a thread is its first mismatched end, whatever the policy, and
the two replays of the thread have been alike until then. -/
structure Parting (t : Int) (events before : List Event) (e : Event) (m : Mismatch) : Prop where
  thread : e.thread = t
  isEnd : e.kind = .scopeEnd
  comes : ∃ after, events = before ++ e :: after
  matched : ∀ strict, Matched strict t before
  alike : Alike t before
  mismatch : ∀ strict, (outcome strict (run strict before) e).mismatch = some m
  /-- It is the first of the thread to be told. -/
  told : ∀ strict, (run strict events).mismatches.toList.find? (·.thread == t) = some m

theorem matched_concat {e : Event} : Matched strict t (events ++ [e]) ↔
    Matched strict t events ∧
      (e.thread = t → (outcome strict (run strict events) e).mismatch = none) := by
  simp only [Matched, findings_concat, List.mem_append, List.mem_singleton, or_imp, forall_and,
    forall_eq]

theorem Matched.of_append {after : List Event} (h : Matched strict t (before ++ after)) :
    Matched strict t before := by
  induction after using List.reverseRecOn with
  | nil => rwa [List.append_nil] at h
  | append_singleton after e ih =>
    rw [← List.append_assoc, matched_concat] at h
    exact ih h.1

/-- **Without a mismatched end of its own a thread runs in step** under the two
policies. -/
theorem Matched.in_step (h : Matched strict t events) (strict' : Bool) :
    ThreadState.run strict' (events.filter (·.thread == t)) =
      ThreadState.run strict (events.filter (·.thread == t)) ∧
    (findings strict' events).filter (·.1 == t) = (findings strict events).filter (·.1 == t) := by
  induction events using List.reverseRecOn with
  | nil => exact ⟨rfl, rfl⟩
  | append_singleton events e ih =>
    obtain ⟨hevents, hlast⟩ := matched_concat.mp h
    obtain ⟨hrun, hfindings⟩ := ih hevents
    rw [findings_concat, findings_concat, List.filter_append, List.filter_append,
      List.filter_append, hfindings]
    by_cases ht : e.thread = t
    · have hown := hlast ht
      rw [outcome_run, ht] at hown
      have hstep := ThreadState.step_eq_of_matched hown strict'
      have hone : [e].filter (·.thread == t) = [e] := by simp [ht]
      rw [hone, ThreadState.run_append, ThreadState.run_append, hrun, outcome_run, outcome_run, ht,
        hrun, hstep]
      exact ⟨rfl, rfl⟩
    · have hnone : [e].filter (·.thread == t) = [] := by simp [ht]
      have hnone' : ∀ found : Outcome, [(e.thread, found)].filter (·.1 == t) = [] := by simp [ht]
      rw [hnone, hnone', hnone', List.append_nil]
      exact ⟨hrun, rfl⟩

theorem Matched.alike (h : Matched strict t events) : Alike t events where
  state := by
    rw [get?_run_eq, get?_run_eq, (h.in_step true).1, (h.in_step false).1]
  findings := (h.in_step true).2.trans (h.in_step false).2.symm

/-- A thread without a mismatched end under one policy has none under the
other. -/
theorem Matched.other (h : Matched strict t events) (strict' : Bool) :
    Matched strict' t events := by
  intro f hf ht
  have hmem : f ∈ (findings strict' events).filter (·.1 == t) :=
    List.mem_filter.mpr ⟨hf, beq_iff_eq.mpr ht⟩
  rw [(h.in_step strict').2] at hmem
  exact h f (List.mem_filter.mp hmem).1 ht

/-- **Without a mismatched end the two policies give one replay.** -/
theorem run_eq_of_matched (h : ∀ t, Matched strict t events) (strict' : Bool) :
    run strict' events = run strict events := by
  induction events using List.reverseRecOn with
  | nil => rfl
  | append_singleton events e ih =>
    have hlast := (matched_concat.mp (h e.thread)).2 rfl
    rw [run_append, run_append, ih fun t => (matched_concat.mp (h t)).1]
    have hstep := ThreadState.step_eq_of_matched hlast strict'
    simp only [apply, hstep]

/-! ## What is told -/

/-- The mismatched ends are told as they are found. -/
theorem mismatches_run (strict : Bool) (events : List Event) :
    (run strict events).mismatches.toList = (findings strict events).filterMap (·.2.mismatch) := by
  induction events using List.reverseRecOn with
  | nil => rfl
  | append_singleton events e ih =>
    rw [run_append, findings_concat, List.filterMap_append, ← ih]
    show (Option.elim (outcome strict (run strict events) e).mismatch _ _ :
      Array Mismatch).toList = _
    cases hmismatch : (outcome strict (run strict events) e).mismatch with
    | none => simp [hmismatch]
    | some m => simp [hmismatch]

/-- What is told of an event is of its thread. -/
theorem thread_of_mismatch {f : Int × Outcome} (hf : f ∈ findings strict events)
    (hm : f.2.mismatch = some m) : m.thread = f.1 := by
  induction events using List.reverseRecOn with
  | nil => exact absurd hf List.not_mem_nil
  | append_singleton events e ih =>
    rw [findings_concat] at hf
    rcases List.mem_append.mp hf with hf | hf
    · exact ih hf
    · obtain rfl := List.mem_singleton.mp hf
      obtain ⟨-, top, -, -, rfl⟩ := ThreadState.mismatch_step_eq_some.mp hm
      rfl

/-- Nothing is told of a thread without a mismatched end. -/
theorem Matched.find?_told (h : Matched strict t events) :
    (run strict events).mismatches.toList.find? (·.thread == t) = none := by
  rw [mismatches_run, List.find?_eq_none]
  intro m hm hthread
  obtain ⟨f, hf, hmismatch⟩ := List.mem_filterMap.mp hm
  have hnone := h f hf ((thread_of_mismatch hf hmismatch).symm.trans (beq_iff_eq.mp hthread))
  rw [hnone] at hmismatch
  exact nomatch hmismatch

/-- What was told is told first, whatever comes after. -/
theorem told_prefix (strict : Bool) (before after : List Event) :
    ∃ rest, (run strict (before ++ after)).mismatches.toList =
      (run strict before).mismatches.toList ++ rest := by
  induction after using List.reverseRecOn with
  | nil => exact ⟨[], by rw [List.append_nil, List.append_nil]⟩
  | append_singleton after e ih =>
    obtain ⟨rest, hrest⟩ := ih
    refine ⟨rest ++ (outcome strict (run strict (before ++ after)) e).mismatch.toList, ?_⟩
    rw [← List.append_assoc, mismatches_run, findings_concat, List.filterMap_append,
      ← mismatches_run, hrest, List.append_assoc]
    cases hmismatch : (outcome strict (run strict (before ++ after)) e).mismatch with
    | none => simp [hmismatch]
    | some m => simp [hmismatch]

/-- The first mismatched end of a thread is the first of it to be told. -/
theorem Matched.find?_told_of_mismatch {e : Event} {after : List Event}
    (h : Matched strict t before) (ht : e.thread = t)
    (hm : (outcome strict (run strict before) e).mismatch = some m) :
    (run strict (before ++ e :: after)).mismatches.toList.find? (·.thread == t) = some m := by
  obtain ⟨rest, hrest⟩ := told_prefix strict (before ++ [e]) after
  have hthread : m.thread = t := by
    obtain ⟨-, top, -, -, rfl⟩ := ThreadState.mismatch_step_eq_some.mp hm
    exact ht
  rw [List.append_assoc, List.singleton_append, mismatches_run strict (before ++ [e]),
    findings_concat, List.filterMap_append, ← mismatches_run] at hrest
  rw [hrest, List.append_assoc, List.find?_append, h.find?_told, Option.none_or]
  simp [hm, hthread]

/-! ## Where the policies part -/

/-- **A thread has no mismatched end, or a first one at which the policies
part.** -/
theorem exists_parting (t : Int) (events : List Event) :
    (∀ strict, Matched strict t events) ∨ ∃ before e m, Parting t events before e m := by
  have hfirst : Matched false t events ∨ ∃ before e after m, events = before ++ e :: after ∧
      e.thread = t ∧ Matched false t before ∧
      (outcome false (run false before) e).mismatch = some m := by
    induction events using List.reverseRecOn with
    | nil => exact .inl fun f hf => absurd hf List.not_mem_nil
    | append_singleton events e ih =>
      rcases ih with hmatched | ⟨before, e', after, m, rfl, ht, hbefore, hm⟩
      · by_cases hlast : e.thread = t ∧ (outcome false (run false events) e).mismatch ≠ none
        · obtain ⟨ht, hne⟩ := hlast
          obtain ⟨m, hm⟩ := Option.ne_none_iff_exists'.mp hne
          exact .inr ⟨events, e, [], m, rfl, ht, hmatched, hm⟩
        · refine .inl (matched_concat.mpr ⟨hmatched, fun ht => ?_⟩)
          by_contra hne
          exact hlast ⟨ht, hne⟩
      · exact .inr ⟨before, e', after ++ [e], m, by simp, ht, hbefore, hm⟩
  rcases hfirst with hmatched | ⟨before, e, after, m, rfl, ht, hbefore, hm⟩
  · exact .inl hmatched.other
  -- until then the thread is in one state, which alone tells what is mismatched
  have hboth : ∀ strict, (outcome strict (run strict before) e).mismatch = some m := by
    intro strict
    rw [outcome_run, ht, (hbefore.in_step strict).1, ThreadState.mismatch_step false]
    rwa [outcome_run, ht] at hm
  have hmatched := hbefore.other
  exact .inr ⟨before, e, m, ht, (ThreadState.mismatch_step_eq_some.mp hm).1, ⟨after, rfl⟩, hmatched,
    hbefore.alike, hboth, fun strict => (hmatched strict).find?_told_of_mismatch ht (hboth strict)⟩

/-- There is a mismatched end exactly if some thread has one. -/
theorem mismatchedEnd_eq_zero_iff :
    (run strict events).totalAnomalies.mismatchedEnd = 0 ↔ ∀ t, Matched strict t events := by
  have hcount : (run strict events).totalAnomalies.mismatchedEnd =
      (run strict events).mismatches.size := by
    rw [totalAnomalies_eq, (Accounted.run strict events).told]
    rfl
  rw [hcount, ← Array.length_toList, List.length_eq_zero_iff, mismatches_run,
    List.filterMap_eq_nil_iff]
  exact ⟨fun h t f hf _ => h f hf, fun h f hf => h f.1 f hf rfl⟩

end Replay

open Replay

/-- **A profile without a mismatched end is the one under the other policy as
well.** -/
theorem Recording.profile_eq_of_matched {r : Recording} {o : ProfileOptions}
    (h : (r.profile o).anomalies.mismatchedEnd = 0) (strict : Bool) :
    r.profile { o with strict := strict } = r.profile o := by
  have hevents : r.profiledEvents { o with strict := strict } = r.profiledEvents o := rfl
  have hrun : run strict (r.profiledEvents o) = run o.strict (r.profiledEvents o) :=
    run_eq_of_matched (mismatchedEnd_eq_zero_iff.mp h) strict
  simp only [Recording.profile, hevents, hrun]

/-- **Strict matching and matching by search part at mismatched ends, and
nowhere else.** One finds no mismatched end exactly if the other finds none, and
then the two profiles are one. In any case, as long as a thread has had no
mismatched end under one of the policies, its frames, the nodes they hold and its
finished trees are the same under both, and so is all that its events have
brought to light. Its first mismatched end, if it has one, is the same event
under both, and is told of in the same words. -/
theorem strictness_parts_at_mismatches (r : Recording) (o : ProfileOptions) :
    let events := r.profiledEvents o
    let searching := r.profile { o with strict := false }
    let strict := r.profile { o with strict := true }
    (strict.anomalies.mismatchedEnd = 0 ↔ searching.anomalies.mismatchedEnd = 0) ∧
    (searching.anomalies.mismatchedEnd = 0 → strict = searching) ∧
    ∀ t,
      (∀ before after policy, events = before ++ after → Matched policy t before →
        Alike t before) ∧
      ((∀ policy, Matched policy t events) ∨
        ∃ before e m, Parting t events before e m ∧
          (r.options.tellsMismatch = true →
            searching.told.find? (·.thread == t) = some m ∧
            strict.told.find? (·.thread == t) = some m)) := by
  intro events searching strict
  have hmatched : ∀ policy, (r.profile { o with strict := policy }).anomalies.mismatchedEnd = 0 ↔
      ∀ t, Matched policy t events := fun policy => mismatchedEnd_eq_zero_iff
  refine ⟨?_, fun hnone => Recording.profile_eq_of_matched hnone true, fun t =>
    ⟨fun before after policy _ h => h.alike, ?_⟩⟩
  · rw [hmatched true, hmatched false]
    exact ⟨fun h t => (h t).other false, fun h t => (h t).other true⟩
  · refine (exists_parting t events).imp_right ?_
    rintro ⟨before, e, m, hparting⟩
    refine ⟨before, e, m, hparting, fun htells => ?_⟩
    have htold : ∀ policy, (r.profile { o with strict := policy }).told =
        (run policy events).mismatches.toList := fun policy => if_pos htells
    have hfirst : ∀ policy, (r.profile { o with strict := policy }).told.find? (·.thread == t) =
        some m := by
      intro policy
      rw [htold]
      exact hparting.told policy
    exact ⟨hfirst false, hfirst true⟩

/-- A thread that begins with an end and ends with a begin, and, between its
events, one whose scopes overlap. -/
def Recording.overlapping : Recording where
  chunks := [[{ id := 9, thread := 1, timestamp := 0, kind := .scopeEnd }],
    [{ id := 1, thread := 2, timestamp := 3, kind := .scopeBegin },
      { id := 2, thread := 2, timestamp := 4, kind := .scopeBegin },
      { id := 1, thread := 2, timestamp := 6, kind := .scopeEnd },
      { id := 2, thread := 2, timestamp := 7, kind := .scopeEnd }],
    [{ id := 3, thread := 1, timestamp := 5, kind := .scopeBegin }]]
  startTime := 0
  endTime := 7
  options := { tellsMismatch := true }

/-- The policies part at the first of two ends on the second thread; the other
thread they profile alike, damage and all. -/
theorem strictness_parts_overlapping :
    let r := Recording.overlapping
    (∃ before e, Parting 2 r.events before e ⟨2, 2, 1, 6⟩) ∧
    (r.profile {}).told = [⟨2, 2, 1, 6⟩] ∧
    (r.profile { strict := true }).told = [⟨2, 2, 1, 6⟩] ∧
    (r.profile { onlyThread := some 1 }).anomalies = ⟨1, 1, 0, 0⟩ ∧
    r.profile { strict := true, onlyThread := some 1 } = r.profile { onlyThread := some 1 } := by
  intro r
  have htold : (r.profile {}).told = [⟨2, 2, 1, 6⟩] := by decide
  have hdamage : (r.profile { onlyThread := some 1 }).anomalies = ⟨1, 1, 0, 0⟩ := by decide
  obtain ⟨-, -, hthreads⟩ := strictness_parts_at_mismatches r {}
  obtain ⟨-, hsame, -⟩ := strictness_parts_at_mismatches r { onlyThread := some 1 }
  refine ⟨?_, htold, by decide, hdamage, hsame (congrArg Anomalies.mismatchedEnd hdamage)⟩
  rcases (hthreads 2).2 with hmatched | ⟨before, e, m, hparting, hfirst⟩
  · have hnone := (hmatched false).find?_told
    exact absurd hnone (by decide)
  · have hm := (hfirst rfl).1
    rw [htold] at hm
    obtain rfl : ⟨2, 2, 1, 6⟩ = m := Option.some.inj hm
    exact ⟨before, e, hparting⟩

end EventTrace
