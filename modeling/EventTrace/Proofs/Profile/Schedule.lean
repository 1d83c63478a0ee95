import EventTrace.Proofs.Profile.Findings
import EventTrace.Proofs.Recording.Grouping
/-!
# Profile — threads are profiled apart

A profile of all threads is put together from profiles of single ones: the
tree of a thread is the same in both, and damage, events, threads and rows
add up (`profile_by_thread`). Only the order in which mismatched ends are told
of depends on how the threads' events were interleaved; all else is settled by
what each thread recorded, whatever the interleaving and the cut into chunks.
-/

namespace EventTrace

namespace Replay

variable {strict : Bool} {events events' : List Event} {t : Int}

/-! ## A thread alone -/

/-- The events of a thread alone are all of that thread. -/
theorem filter_filter_thread (events : List Event) (t : Int) :
    (events.filter (·.thread == t)).filter (·.thread == t) = events.filter (·.thread == t) := by
  rw [List.filter_filter]
  simp only [Bool.and_self]

/-- **Alone, a thread is where it is among the others**, and there is no
other. -/
theorem rows_alone (strict : Bool) (ht : t ∈ events.map Event.thread) :
    (run strict (events.filter (·.thread == t))).threads.rows =
      [(t, ThreadState.run strict (events.filter (·.thread == t)))] := by
  have hthreads : ∀ u, u ∈ (events.filter (·.thread == t)).map Event.thread ↔ u = t := by
    intro u
    simp only [List.mem_map, List.mem_filter, beq_iff_eq] at ht ⊢
    constructor
    · rintro ⟨e, ⟨-, he⟩, rfl⟩
      exact he
    · rintro rfl
      obtain ⟨e, he, hthread⟩ := ht
      exact ⟨e, ⟨he, hthread⟩, hthread⟩
  refine List.perm_singleton.mp ((List.perm_ext_iff_of_nodup (.of_map Prod.fst
    (run strict _).threads.distinct) (List.nodup_singleton _)).mpr fun row => ?_)
  have hrow : row ∈ (run strict (events.filter (·.thread == t))).threads.rows ↔
      (run strict (events.filter (·.thread == t))).threads.get? row.1 = some row.2 :=
    ⟨Table.get?_of_mem, Table.mem_of_get?⟩
  rw [hrow, get?_run_eq, List.mem_singleton]
  simp only [hthreads]
  constructor
  · intro h
    split at h
    · next hkey =>
      rw [hkey, filter_filter_thread, Option.some.injEq] at h
      exact Prod.ext hkey h.symm
    · exact absurd h (by simp)
  · rintro rfl
    rw [if_pos rfl, filter_filter_thread]

theorem keys_alone (strict : Bool) (ht : t ∈ events.map Event.thread) :
    (run strict (events.filter (·.thread == t))).threads.keys = [t] := by
  rw [Table.keys, rows_alone strict ht]
  rfl

/-- **The tree of a thread is that of its events alone**, and their only
one. -/
theorem threadTrees_alone (strict : Bool) (ht : t ∈ events.map Event.thread) :
    ∃ root, (t, root) ∈ (run strict events).threadTrees ∧
      (run strict (events.filter (·.thread == t))).threadTrees = [(t, root)] := by
  refine ⟨Node.root (ThreadState.run strict (events.filter (·.thread == t))).trees,
    mem_threadTrees.mpr ⟨ThreadState.run strict (events.filter (·.thread == t)), ?_, rfl⟩, ?_⟩
  · rw [get?_run_eq, if_pos ht]
  · rw [threadTrees, Table.sorted, rows_alone strict ht, List.mergeSort_singleton]
    rfl

/-! ## All threads together -/

/-- What is left open adds to the damage on the way. -/
theorem totalAnomalies_eq_sum (r : Replay) : r.totalAnomalies =
    r.anomalies + (r.threads.values.map fun s => Nesting.leftOpen s.frames).sum := by
  rw [totalAnomalies]
  generalize r.anomalies = sum
  induction r.threads.values generalizing sum with
  | nil => rfl
  | cons s rest ih => rw [List.foldl_cons, ih, Anomalies.add_assoc, List.map_cons, List.sum_cons]

/-- The damage that events of one thread come to. -/
def damage (strict : Bool) (events : List Event) : Anomalies :=
  ((findings strict events).map (·.2.anomalies)).sum +
    Nesting.leftOpen (ThreadState.run strict events).frames

/-- **The damage is that of the threads together.** -/
theorem totalAnomalies_run (strict : Bool) (events : List Event) :
    (run strict events).totalAnomalies = ((run strict events).threads.keys.map fun t =>
      damage strict (events.filter (·.thread == t))).sum := by
  have hkeys : ∀ f ∈ findings strict events, f.1 ∈ (run strict events).threads.keys := by
    intro f hf
    rw [mem_keys_run, ← map_fst_findings strict]
    exact List.mem_map_of_mem hf
  have hway := Table.sum_keys (fun f : Int × Outcome => f.2.anomalies) Prod.fst
    (run strict events).threads.nodup_keys hkeys
  simp only [findings_filter] at hway
  rw [totalAnomalies_eq_sum, anomalies_run, ← hway, sum_values_run (fun s =>
    Nesting.leftOpen s.frames), ← List.sum_map_add]
  rfl

theorem totalAnomalies_alone (strict : Bool) (ht : t ∈ events.map Event.thread) :
    (run strict (events.filter (·.thread == t))).totalAnomalies =
      damage strict (events.filter (·.thread == t)) := by
  rw [totalAnomalies_run, keys_alone strict ht, List.map_singleton, List.sum_singleton,
    filter_filter_thread]

/-- The begins and ends are counted, and nothing else. -/
theorem scopeEvents_run (strict : Bool) (events : List Event) :
    (run strict events).scopeEvents = events.countP (·.kind.isScope) := by
  induction events using List.reverseRecOn with
  | nil => rfl
  | append_singleton events e ih =>
    rw [run_append, List.countP_append, ← ih]
    show (if e.kind.isScope then _ else _) = _
    cases hscope : e.kind.isScope <;> simp [hscope]

/-! ## The same threads in another order -/

/-- Events that agree thread by thread replay to the same states. -/
theorem get?_run_congr (strict : Bool)
    (h : ∀ t, events'.filter (·.thread == t) = events.filter (·.thread == t)) (t : Int) :
    (run strict events').threads.get? t = (run strict events).threads.get? t := by
  have hperm := Table.perm_of_filter_key Event.thread h
  rw [get?_run_eq, get?_run_eq, h]
  simp only [(hperm.map Event.thread).mem_iff]

theorem threadTrees_congr (strict : Bool)
    (h : ∀ t, events'.filter (·.thread == t) = events.filter (·.thread == t)) :
    (run strict events').threadTrees = (run strict events).threadTrees := by
  rw [threadTrees, threadTrees, Table.sorted_congr (get?_run_congr strict h)]

theorem totalAnomalies_congr (strict : Bool)
    (h : ∀ t, events'.filter (·.thread == t) = events.filter (·.thread == t)) :
    (run strict events').totalAnomalies = (run strict events).totalAnomalies := by
  have hvalues : (run strict events').threads.values.Perm (run strict events).threads.values :=
    (Table.rows_perm (get?_run_congr strict h)).map Prod.snd
  rw [totalAnomalies_eq_sum, totalAnomalies_eq_sum, anomalies_run, anomalies_run,
    ((findings_perm strict h).map _).sum_eq, (hvalues.map _).sum_eq]

theorem report_congr (strict : Bool)
    (h : ∀ t, events'.filter (·.thread == t) = events.filter (·.thread == t)) (rate : TickRate)
    (metadata : Option Provider) :
    (run strict events').hotspots.report rate metadata =
      (run strict events).hotspots.report rate metadata := by
  rw [hotspots_run, hotspots_run]
  exact Hotspots.report_ofScopes_perm ((findings_perm strict h).filterMap _) rate metadata

end Replay

/-! ## Profiles -/

/-- A row of hotspots that adds up from several: its scopes are the sum of
theirs, its ticks as well, as words have the sum, and so are the scopes that
each thread closed. -/
structure Hotspots.AddsUp (parts : List Hotspots) (row : Int × IdTotals) : Prop where
  amount : row.2.amount = Amount.wrapped (parts.map fun h => (h.totals row.1).amount).sum
  threads : ∀ u, (row.2.threads.get? u).getD 0 = (parts.map fun h => h.closedBy row.1 u).sum

/-- The profile without what was told while it was made. -/
def Profile.untold (p : Profile) : Profile := { p with told := [] }

namespace Recording

/-- Two recordings of the same threads: they may differ in how the threads'
events are interleaved and cut into chunks. -/
structure SameThreads (r r' : Recording) : Prop where
  startTime : r'.startTime = r.startTime
  endTime : r'.endTime = r.endTime
  rate : r'.rate = r.rate
  options : r'.options = r.options
  losses : r'.losses = r.losses
  threadNames : ∀ t, r'.threadNames.get? t = r.threadNames.get? t
  events : ∀ t, r'.events.filter (·.thread == t) = r.events.filter (·.thread == t)

variable {r r' : Recording} {t : Int}

theorem SameThreads.profiledEvents (h : r.SameThreads r') (o : ProfileOptions) (t : Int) :
    (r'.profiledEvents o).filter (·.thread == t) = (r.profiledEvents o).filter (·.thread == t) := by
  unfold Recording.profiledEvents
  split
  · exact h.events t
  · next only _ => rw [h.events only]

/-- **The same threads give the same profile**, but for the order in which
mismatched ends are told of. -/
theorem SameThreads.profile (h : r.SameThreads r') (o : ProfileOptions) :
    (r'.profile o).untold = (r.profile o).untold := by
  have hevents := h.profiledEvents o
  have htrees := Replay.threadTrees_congr o.strict hevents
  have hduration : r'.durationMs = r.durationMs := by
    rw [durationMs, durationMs, duration, duration, h.rate, h.startTime, h.endTime]
  have hroot : r'.showRoot = r.showRoot := by
    funext root
    have hname : r'.nameOf = r.nameOf := by
      funext id
      rw [nameOf, nameOf, h.options]
    rw [showRoot, showRoot, h.rate, hname]
  have hscopes : (Replay.run o.strict (r'.profiledEvents o)).scopeEvents =
      (Replay.run o.strict (r.profiledEvents o)).scopeEvents := by
    rw [Replay.scopeEvents_run, Replay.scopeEvents_run,
      (Table.perm_of_filter_key Event.thread hevents).countP_eq]
  simp only [Profile.untold, Recording.profile, Replay.globalTree, htrees, hduration, hroot,
    hscopes, Replay.totalAnomalies_congr o.strict hevents, Replay.report_congr o.strict hevents,
    h.rate, h.options, h.losses, h.threadNames]

/-- What the threads of a recording sum up to is what the threads of its
replay do. -/
theorem sum_threadIds {M : Type} [AddCommMonoid M] (f : Int → M) (strict : Bool)
    (r : Recording) :
    (r.threadIds.map f).sum = ((Replay.run strict r.events).threads.keys.map f).sum := by
  have hperm : r.threadIds.Perm (Replay.run strict r.events).threads.keys :=
    (List.perm_ext_iff_of_nodup r.nodup_threadIds (Table.nodup_keys _)).mpr fun t =>
      mem_threadIds.trans Replay.mem_keys_run.symm
  exact (hperm.map f).sum_eq

/-- The trace of a thread is the only one of its profile alone. -/
theorem thread?_profile (strict : Bool) (ht : t ∈ r.threadIds) :
    ∃ trace, (r.profile { strict }).thread? t = some trace ∧
      (r.profile { strict, onlyThread := some t }).threads = [trace] := by
  obtain ⟨root, hroot, halone⟩ := Replay.threadTrees_alone strict (mem_threadIds.mp ht)
  refine ⟨⟨t, r.threadNames.get? t, r.showRoot root⟩, ?_, ?_⟩
  · show List.find? _ (List.map _ (Replay.run strict r.events).threadTrees) = _
    rw [List.find?_map, Option.map_eq_some_iff]
    have hfound : ((Replay.run strict r.events).threadTrees.find? (·.1 == t)).isSome :=
      List.find?_isSome.mpr ⟨(t, root), hroot, beq_self_eq_true t⟩
    obtain ⟨tree, htree⟩ := Option.isSome_iff_exists.mp hfound
    have hthread : tree.1 = t := by
      simpa using List.find?_some htree
    refine ⟨tree, htree, ?_⟩
    -- a replay has one tree of a thread
    obtain ⟨s, hs, rfl⟩ := Replay.mem_threadTrees.mp hroot
    obtain ⟨s', hs', hroot'⟩ := Replay.mem_threadTrees.mp (List.mem_of_find?_eq_some htree)
    rw [hthread, hs, Option.some.injEq] at hs'
    simp only [hthread, hroot', hs']
  · show List.map _ (Replay.run strict (r.events.filter (·.thread == t))).threadTrees = _
    rw [halone]
    rfl

/-- Each row adds up from those of the threads alone. -/
theorem addsUp_hotspots (strict : Bool) {row : Int × IdTotals}
    (hrow : row ∈ (Replay.run strict r.events).hotspots.ranked) :
    Hotspots.AddsUp (r.threadIds.map fun t =>
      (Replay.run strict (r.events.filter (·.thread == t))).hotspots) row := by
  have hthreads : ∀ scope ∈ Replay.closedScopes strict r.events, scope.thread ∈ r.threadIds :=
    fun scope hscope => mem_threadIds.mpr (Replay.thread_of_mem_closedScopes hscope)
  have htotals : (Replay.run strict r.events).hotspots.totals row.1 = row.2 := by
    rw [Hotspots.totals, Replay.mem_ranked.mp hrow]
    rfl
  constructor
  · have hfit := (Hotspots.counted_ofScopes (Replay.closedScopes strict r.events)).fit_totals row.1
    rw [← Replay.hotspots_run, htotals] at hfit
    rw [hfit.eq_wrapped_iff, map_list_sum]
    simp only [← htotals, Replay.hotspots_run, Hotspots.amount_ofScopes, Amount.words_wrapped,
      map_list_sum, List.map_map, Function.comp_def, ← Replay.closedScopes_filter]
    exact (Table.sum_keys _ _ r.nodup_threadIds hthreads).symm
  · intro u
    have hclosed : (row.2.threads.get? u).getD 0 =
        (Replay.run strict r.events).hotspots.closedBy row.1 u := by
      rw [Hotspots.closedBy, htotals]
    simp only [hclosed, Replay.hotspots_run, Hotspots.closedBy_ofScopes, List.map_map,
      Function.comp_def, ← Replay.closedScopes_filter]
    exact (Table.sum_keys_countP_filter _ _ r.nodup_threadIds hthreads).symm

/-- An id has a row exactly if it has one for some thread alone. -/
theorem exists_row_iff_alone (strict : Bool) (r : Recording) (id : Int) :
    (∃ row ∈ (Replay.run strict r.events).hotspots.ranked, row.1 = id) ↔
      ∃ t ∈ r.threadIds, ∃ row ∈
        (Replay.run strict (r.events.filter (·.thread == t))).hotspots.ranked, row.1 = id := by
  have hscopes : ∀ events, (∃ row ∈ (Replay.run strict events).hotspots.ranked, row.1 = id) ↔
      ∃ scope ∈ Replay.closedScopes strict events, scope.id = id := by
    intro events
    have hcounted := Hotspots.counted_ofScopes (Replay.closedScopes strict events)
    have hrow : (∃ row ∈ (Replay.run strict events).hotspots.ranked, row.1 = id) ↔
        ∃ totals, (Replay.run strict events).hotspots.ids.get? id = some totals := by
      constructor
      · rintro ⟨row, hrow, rfl⟩
        exact ⟨row.2, Replay.mem_ranked.mp hrow⟩
      · rintro ⟨totals, htotals⟩
        exact ⟨(id, totals), Replay.mem_ranked.mpr htotals, rfl⟩
    have hcount : ((Hotspots.ofScopes (Replay.closedScopes strict events)).totals id).amount.1 =
        ((Replay.closedScopes strict events).map fun scope =>
          ClosedScope.amountOf id (some scope)).sum.1 :=
      Amount.fst_eq_of_words (by rw [Hotspots.amount_ofScopes, Amount.words_wrapped])
    rw [hrow, Replay.hotspots_run, hcounted.get?_iff]
    show 0 < ((Hotspots.ofScopes _).totals id).amount.1 ↔ _
    rw [hcount, Amount.fst_sum_pos]
    refine exists_congr fun scope => and_congr_right fun _ => ?_
    by_cases hid : scope.id = id <;> simp [ClosedScope.amountOf, ClosedScope.amount, hid]
  simp only [hscopes, ← Replay.closedScopes_filter]
  constructor
  · rintro ⟨scope, hscope, hid⟩
    exact ⟨scope.thread, mem_threadIds.mpr (Replay.thread_of_mem_closedScopes hscope), scope,
      List.mem_filter.mpr ⟨hscope, beq_self_eq_true _⟩, hid⟩
  · rintro ⟨t, -, scope, hscope, hid⟩
    exact ⟨scope, List.mem_of_mem_filter hscope, hid⟩

end Recording

/-- **Threads are profiled apart.** The tree of a thread in a profile of all
threads is the only tree of its profile alone. Damage, begins and ends, and
threads seen are the sums over the threads of those of the profiles alone;
each row of hotspots adds up from their rows, and an id has one exactly if it
has one for some thread. So two recordings of the same threads have the same
profile, however the threads are interleaved and cut into chunks, but for the
order in which mismatched ends are told of. -/
theorem profile_by_thread (r : Recording) (strict : Bool) :
    let whole := r.profile { strict }
    let alone := fun t => r.profile { strict, onlyThread := some t }
    let replay := Replay.run strict r.events
    let replayOf := fun t => Replay.run strict (r.events.filter (·.thread == t))
    (∀ t ∈ r.threadIds,
      (∃ trace, whole.thread? t = some trace ∧ (alone t).threads = [trace]) ∧
      ∃ root, (t, root) ∈ replay.threadTrees ∧ (replayOf t).threadTrees = [(t, root)]) ∧
    whole.anomalies = (r.threadIds.map fun t => (alone t).anomalies).sum ∧
    whole.scopeEvents = (r.threadIds.map fun t => (alone t).scopeEvents).sum ∧
    whole.threadsSeen = (r.threadIds.map fun t => (alone t).threadsSeen).sum ∧
    (∀ row ∈ replay.hotspots.ranked,
      Hotspots.AddsUp (r.threadIds.map fun t => (replayOf t).hotspots) row) ∧
    (∀ id, (∃ row ∈ replay.hotspots.ranked, row.1 = id) ↔
      ∃ t ∈ r.threadIds, ∃ row ∈ (replayOf t).hotspots.ranked, row.1 = id) ∧
    ∀ r', r.SameThreads r' → ∀ o, (r'.profile o).untold = (r.profile o).untold := by
  intro whole alone replay replayOf
  have hthreads : ∀ e ∈ r.events, e.thread ∈ r.threadIds := fun e he =>
    Recording.mem_threadIds.mpr (List.mem_map_of_mem he)
  refine ⟨fun t ht => ⟨Recording.thread?_profile strict ht,
    Replay.threadTrees_alone strict (Recording.mem_threadIds.mp ht)⟩, ?_, ?_, ?_,
    fun row => Recording.addsUp_hotspots strict, r.exists_row_iff_alone strict,
    fun r' h o => h.profile o⟩
  · have halone : ∀ t ∈ r.threadIds,
        (alone t).anomalies = Replay.damage strict (r.events.filter (·.thread == t)) := fun t ht =>
      Replay.totalAnomalies_alone strict (Recording.mem_threadIds.mp ht)
    rw [List.map_congr_left halone, r.sum_threadIds _ strict]
    exact Replay.totalAnomalies_run strict r.events
  · show (Replay.run strict r.events).scopeEvents =
      (r.threadIds.map fun t => (replayOf t).scopeEvents).sum
    simp only [replayOf, Replay.scopeEvents_run]
    exact (Table.sum_keys_countP_filter _ _ r.nodup_threadIds hthreads).symm
  · have halone : ∀ t ∈ r.threadIds, (alone t).threadsSeen = 1 := by
      intro t ht
      obtain ⟨root, -, htrees⟩ := Replay.threadTrees_alone strict (Recording.mem_threadIds.mp ht)
      show (replayOf t).threadTrees.length = 1
      rw [htrees]
      rfl
    rw [List.map_congr_left halone, r.sum_threadIds _ strict]
    show ((Replay.run strict r.events).threads.sorted.map _).length = _
    rw [List.length_map, Table.sorted, (List.mergeSort_perm ..).length_eq, List.map_const',
      List.sum_replicate, Table.keys, List.length_map]
    simp

/-- Two threads, of which one ends what only the other began: chunk after
chunk, or with every event in a chunk of its own. -/
theorem profile_by_thread_recut :
    let event := fun thread timestamp kind => ({ id := 5, thread, timestamp, kind } : Event)
    let ending := { event 2 6 .scopeEnd with id := 7 }
    let r : Recording :=
      { chunks := [[event 1 0 .scopeBegin, event 1 9 .scopeEnd],
          [event 2 2 .scopeBegin, ending, event 2 8 .scopeEnd]]
        startTime := 0
        endTime := 9 }
    let r' : Recording :=
      { r with chunks := [[event 2 2 .scopeBegin], [event 1 0 .scopeBegin], [ending],
          [event 1 9 .scopeEnd], [event 2 8 .scopeEnd]] }
    2 ∈ r.threadIds ∧ r.SameThreads r' ∧ r'.events ≠ r.events ∧
      (∃ trace, (r.profile {}).thread? 2 = some trace ∧
        (r.profile { onlyThread := some 2 }).threads = [trace]) ∧
      (r'.profile {}).untold = (r.profile {}).untold := by
  intro event ending r r'
  have hthread : 2 ∈ r.threadIds := Recording.mem_threadIds.mpr (by decide)
  have hsame : r.SameThreads r' := by
    refine ⟨rfl, rfl, rfl, rfl, rfl, fun _ => rfl, fun t => ?_⟩
    by_cases hone : t = 1
    · subst hone
      decide
    by_cases htwo : t = 2
    · subst htwo
      decide
    · have h₁ : ((1 : Int) == t) = false := by simpa using Ne.symm hone
      have h₂ : ((2 : Int) == t) = false := by simpa using Ne.symm htwo
      simp [Recording.events, r, r', event, ending, h₁, h₂]
  obtain ⟨halone, -, -, -, -, -, hany⟩ := profile_by_thread r false
  exact ⟨hthread, hsame, by decide, (halone 2 hthread).1, hany r' hsame {}⟩

end EventTrace
