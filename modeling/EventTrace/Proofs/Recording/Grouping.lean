import EventTrace.Proofs.Table
import EventTrace.Recording.Basic
/-!
# Grouping — given events become a recording

Events that are given thread by thread or in any mixture are filed under their
threads one at a time. What comes of it is one chunk for each thread, in the
order of the threads' first events, which holds that thread's events in the
order given (`Recording.chunks_ofEvents`). The time bounds are the earliest and
the latest timestamp; a single pass that starts from the latest and the earliest
instant a clock can show finds the same ones (`Recording.scanBounds_eq`).
-/

namespace EventTrace

theorem nodup_eraseDups {α : Type} [BEq α] [LawfulBEq α] : ∀ l : List α, l.eraseDups.Nodup
  | [] => by simp
  | a :: rest => by
    rw [List.eraseDups_cons, List.nodup_cons]
    exact ⟨by simp, nodup_eraseDups _⟩
termination_by l => l.length
decreasing_by exact Nat.lt_succ_of_le (List.length_filter_le _ _)

namespace Recording

variable {r : Recording} {events : List Event} {t : Int}

/-! ## The threads of a recording -/

theorem nodup_threadIds (r : Recording) : r.threadIds.Nodup :=
  (List.mergeSort_perm ..).nodup_iff.mpr (nodup_eraseDups _)

/-- The threads of a recording are those of its events. -/
theorem mem_threadIds : t ∈ r.threadIds ↔ t ∈ r.events.map Event.thread :=
  (List.mergeSort_perm ..).mem_iff.trans List.mem_eraseDups

/-- The threads of a recording are listed in ascending order, each once. -/
theorem pairwise_threadIds (r : Recording) : r.threadIds.Pairwise (· < ·) := by
  have hsorted := @List.pairwise_mergeSort Int (fun a b => decide (a ≤ b))
    (fun a b c hab hbc => by simp only [decide_eq_true_eq] at *; omega)
    (fun a b => by simp only [Bool.or_eq_true, decide_eq_true_eq]; omega)
    (r.events.map Event.thread).eraseDups
  simp only [decide_eq_true_eq] at hsorted
  exact (hsorted.and r.nodup_threadIds).imp fun {a b} ⟨hle, hne⟩ => lt_of_le_of_ne hle hne

/-! ## Chunks -/

/-- The threads of some events, each once, in the order of their first
events. -/
def threadsOf (events : List Event) : List Int := (events.map Event.thread).eraseDups

theorem nodup_threadsOf (events : List Event) : (threadsOf events).Nodup := nodup_eraseDups _

theorem mem_threadsOf : t ∈ threadsOf events ↔ ∃ e ∈ events, e.thread = t := by
  rw [threadsOf, List.mem_eraseDups, List.mem_map]

/-- One event more is of a thread that has come before, or of a new one. -/
theorem threadsOf_concat (events : List Event) (e : Event) :
    threadsOf (events ++ [e]) =
      if e.thread ∈ threadsOf events then threadsOf events else threadsOf events ++ [e.thread] := by
  rw [threadsOf, List.map_append, List.eraseDups_append, List.map_singleton, ← threadsOf]
  by_cases he : e.thread ∈ threadsOf events
  · have hbefore : e.thread ∈ events.map Event.thread := List.mem_eraseDups.mp he
    rw [if_pos he, List.removeAll, List.filter_cons_of_neg (by simpa using hbefore)]
    exact List.append_nil _
  · have hnew : e.thread ∉ events.map Event.thread := fun h => he (List.mem_eraseDups.mpr h)
    rw [if_neg he, List.removeAll, List.filter_cons_of_pos (by simpa using hnew)]
    rfl

/-- **Threads are listed in the order of their first events.** -/
theorem pairwise_threadsOf (events : List Event) :
    (threadsOf events).Pairwise fun t u =>
      events.findIdx (·.thread == t) < events.findIdx (·.thread == u) := by
  induction events using List.reverseRecOn with
  | nil => exact .nil
  | append_singleton events e ih =>
    -- a thread that has come before has its first event where it had it
    have hfirst : ∀ t ∈ threadsOf events, events.findIdx (·.thread == t) < events.length ∧
        (events ++ [e]).findIdx (·.thread == t) = events.findIdx (·.thread == t) := by
      intro t ht
      obtain ⟨e', he', hthread⟩ := mem_threadsOf.mp ht
      have hlt : events.findIdx (·.thread == t) < events.length :=
        List.findIdx_lt_length.mpr ⟨e', he', beq_iff_eq.mpr hthread⟩
      exact ⟨hlt, by rw [List.findIdx_append, if_pos hlt]⟩
    have hkept : (threadsOf events).Pairwise fun t u =>
        (events ++ [e]).findIdx (·.thread == t) < (events ++ [e]).findIdx (·.thread == u) := by
      refine ih.imp_of_mem fun {t u} ht hu hlt => ?_
      rwa [(hfirst t ht).2, (hfirst u hu).2]
    rw [threadsOf_concat]
    split
    · exact hkept
    · next hnew =>
      refine List.pairwise_append.mpr ⟨hkept, List.pairwise_singleton .., fun t ht u hu => ?_⟩
      rw [List.mem_singleton.mp hu, (hfirst t ht).2]
      have hnone : ¬ events.findIdx (·.thread == e.thread) < events.length := by
        intro hlt
        obtain ⟨e', he', hthread⟩ := List.findIdx_lt_length.mp hlt
        exact hnew (mem_threadsOf.mpr ⟨e', he', beq_iff_eq.mp hthread⟩)
      rw [List.findIdx_append, if_neg hnone]
      exact Nat.lt_of_lt_of_le (hfirst t ht).1 (Nat.le_add_left ..)

theorem keys_groupByThread (events : List Event) :
    (groupByThread events).keys = threadsOf events := by
  induction events using List.reverseRecOn with
  | nil => rfl
  | append_singleton events e ih =>
    have hconcat : groupByThread (events ++ [e]) = (groupByThread events).alter e.thread
        fun list => (list.getD #[]).push e := List.foldl_concat ..
    rw [hconcat, Table.keys_alter, ih, threadsOf_concat]

/-- **A chunk for each thread, of that thread's events.** -/
theorem chunks_ofEvents (events : List Event) : (ofEvents events).chunks =
    (threadsOf events).map fun t => events.filter (·.thread == t) := by
  have hvalues : (groupByThread events).values =
      (groupByThread events).keys.map fun t => (events.filter (·.thread == t)).toArray := by
    refine Table.values_eq_map_keys fun t list hlist => ?_
    have hfiled : (groupByThread events).get? t = _ := Table.get?_filed Event.thread events t
    rw [hlist] at hfiled
    split at hfiled
    · exact absurd hfiled (by simp)
    · exact Option.some.inj hfiled
  show (groupByThread events).values.map Array.toList = _
  rw [hvalues, keys_groupByThread, List.map_map]
  exact List.map_congr_left fun t _ => rfl

/-- The chunks hold every event that was given, and no other. -/
theorem mem_events_ofEvents {e : Event} : e ∈ (ofEvents events).events ↔ e ∈ events := by
  rw [Recording.events, chunks_ofEvents, ← List.flatMap_def, List.mem_flatMap]
  constructor
  · rintro ⟨t, -, he⟩
    exact (List.mem_filter.mp he).1
  · intro he
    exact ⟨e.thread, mem_threadsOf.mpr ⟨e, he, rfl⟩,
      List.mem_filter.mpr ⟨he, beq_self_eq_true _⟩⟩

theorem ne_nil_of_mem_chunks_ofEvents {chunk : List Event}
    (h : chunk ∈ (ofEvents events).chunks) : chunk ≠ [] := by
  rw [chunks_ofEvents] at h
  obtain ⟨t, ht, rfl⟩ := List.mem_map.mp h
  obtain ⟨e, he, hthread⟩ := mem_threadsOf.mp ht
  exact List.ne_nil_of_mem (List.mem_filter.mpr ⟨he, beq_iff_eq.mpr hthread⟩)

theorem eventCount_ofEvents (events : List Event) :
    (ofEvents events).eventCount = events.length := by
  have hsum := Table.sum_keys_countP_filter (fun _ => true) Event.thread (nodup_threadsOf events)
    fun e he => mem_threadsOf.mpr ⟨e, he, rfl⟩
  simp only [List.countP_true] at hsum
  rw [eventCount, countEvents_eq_length_flatten, chunks_ofEvents, List.length_flatten, List.map_map,
    ← hsum]
  rfl

theorem mem_threadIds_ofEvents : t ∈ (ofEvents events).threadIds ↔ t ∈ threadsOf events := by
  rw [mem_threadIds, List.mem_map, mem_threadsOf]
  exact exists_congr fun e => and_congr_left fun _ => mem_events_ofEvents

/-! ## Time bounds -/

/-- Some bounds moved apart as far as an event asks. -/
def widen (bounds : Int × Int) (e : Event) : Int × Int :=
  (min bounds.1 e.timestamp, max bounds.2 e.timestamp)

/-- The bounds of some events as one pass finds them: it starts from the latest
and the earliest instant a clock can show, and bounds that stay crossed are
taken for zero. -/
def scanBounds (events : List Event) : Int × Int :=
  let bounds := events.foldl widen (TickRate.maxTicks, TickRate.minTicks)
  if bounds.2 < bounds.1 then (0, 0) else bounds

/-- The earliest and the latest timestamp of some events, both zero if there is
none. -/
structure Bounds (events : List Event) (start stop : Int) : Prop where
  none : events = [] → start = 0 ∧ stop = 0
  starts : events ≠ [] → ∃ e ∈ events, e.timestamp = start
  stops : events ≠ [] → ∃ e ∈ events, e.timestamp = stop
  start_le : ∀ e ∈ events, start ≤ e.timestamp
  le_stop : ∀ e ∈ events, e.timestamp ≤ stop

/-- Bounds moved apart by an event and more are the least and the greatest of
all timestamps. -/
theorem bounds_widen (e : Event) (rest : List Event) :
    let bounds := rest.foldl widen (e.timestamp, e.timestamp)
    Bounds (e :: rest) bounds.1 bounds.2 := by
  induction rest using List.reverseRecOn with
  | nil => exact ⟨by simp, by simp, by simp, by simp, by simp⟩
  | append_singleton rest last ih =>
    dsimp only at ih ⊢
    rw [List.foldl_concat]
    obtain ⟨first, hfirst, hstart⟩ := ih.starts (List.cons_ne_nil _ _)
    obtain ⟨final, hfinal, hstop⟩ := ih.stops (List.cons_ne_nil _ _)
    have hmem : ∀ {x}, x ∈ e :: (rest ++ [last]) ↔ x ∈ e :: rest ∨ x = last := by
      simp [or_assoc]
    refine ⟨by simp, fun _ => ?_, fun _ => ?_, fun x hx => ?_, fun x hx => ?_⟩
    · rcases min_choice (rest.foldl widen (e.timestamp, e.timestamp)).1 last.timestamp with h | h
      · exact ⟨first, hmem.mpr (.inl hfirst), hstart.trans h.symm⟩
      · exact ⟨last, hmem.mpr (.inr rfl), h.symm⟩
    · rcases max_choice (rest.foldl widen (e.timestamp, e.timestamp)).2 last.timestamp with h | h
      · exact ⟨final, hmem.mpr (.inl hfinal), hstop.trans h.symm⟩
      · exact ⟨last, hmem.mpr (.inr rfl), h.symm⟩
    · rcases hmem.mp hx with hx | rfl
      · exact (min_le_left ..).trans (ih.start_le x hx)
      · exact min_le_right ..
    · rcases hmem.mp hx with hx | rfl
      · exact (ih.le_stop x hx).trans (le_max_left ..)
      · exact le_max_right ..

theorem bounds_timeBounds (events : List Event) :
    Bounds events (timeBounds events).1 (timeBounds events).2 := by
  cases events with
  | nil => exact ⟨by simp [timeBounds], by simp, by simp, by simp, by simp⟩
  | cons e rest => exact bounds_widen e rest

/-- **The pass finds the bounds**, also where all timestamps are the latest or
the earliest instant a clock can show. -/
theorem scanBounds_eq (h : ∀ e ∈ events,
    TickRate.minTicks ≤ e.timestamp ∧ e.timestamp ≤ TickRate.maxTicks) :
    scanBounds events = timeBounds events := by
  cases events with
  | nil => rfl
  | cons e rest =>
    obtain ⟨hmin, hmax⟩ := h e List.mem_cons_self
    have hfirst : widen (TickRate.maxTicks, TickRate.minTicks) e = (e.timestamp, e.timestamp) := by
      rw [widen, min_eq_right hmax, max_eq_right hmin]
    have hbounds := bounds_widen e rest
    have hstart := hbounds.start_le e List.mem_cons_self
    have hstop := hbounds.le_stop e List.mem_cons_self
    rw [scanBounds, List.foldl_cons, hfirst]
    exact if_neg (Int.not_lt.mpr (hstart.trans hstop))

/-- **Given events are partitioned by thread, and nothing is lost.** There is a
chunk for each thread, in the order of the threads' first events; it is not
empty and holds the thread's events in the order given. As many events are held
as were given, the threads are listed in ascending order, and the recording
starts at the earliest timestamp and ends at the latest, as one pass over
timestamps that a clock can show finds them. -/
theorem ofEvents_partitions (events : List Event) :
    let r := ofEvents events
    r.chunks = (threadsOf events).map (fun t => events.filter (·.thread == t)) ∧
    ((threadsOf events).Nodup ∧ (∀ t, t ∈ threadsOf events ↔ ∃ e ∈ events, e.thread = t) ∧
      (threadsOf events).Pairwise fun t u =>
        events.findIdx (·.thread == t) < events.findIdx (·.thread == u)) ∧
    (∀ chunk ∈ r.chunks, chunk ≠ []) ∧
    r.eventCount = events.length ∧
    (r.threadIds.Pairwise (· < ·) ∧ ∀ t, t ∈ r.threadIds ↔ ∃ e ∈ events, e.thread = t) ∧
    Bounds events r.startTime r.endTime ∧
    ((∀ e ∈ events, TickRate.minTicks ≤ e.timestamp ∧ e.timestamp ≤ TickRate.maxTicks) →
      scanBounds events = (r.startTime, r.endTime)) := by
  intro r
  refine ⟨chunks_ofEvents events,
    ⟨nodup_threadsOf events, fun _ => mem_threadsOf, pairwise_threadsOf events⟩,
    fun _ => ne_nil_of_mem_chunks_ofEvents, eventCount_ofEvents events,
    ⟨r.pairwise_threadIds, fun _ => mem_threadIds_ofEvents.trans mem_threadsOf⟩,
    bounds_timeBounds events, scanBounds_eq⟩

/-- Two threads whose events all come at the latest instant a clock can show. -/
theorem ofEvents_partitions_latest :
    let atEnd (thread id : Int) : Event :=
      { id, thread, timestamp := TickRate.maxTicks, kind := .instant }
    let events := [atEnd 7 1, atEnd 3 2, atEnd 7 3]
    (∀ e ∈ events, TickRate.minTicks ≤ e.timestamp ∧ e.timestamp ≤ TickRate.maxTicks) ∧
    scanBounds events = ((ofEvents events).startTime, (ofEvents events).endTime) ∧
    (ofEvents events).chunks = [[atEnd 7 1, atEnd 7 3], [atEnd 3 2]] ∧
    (ofEvents events).startTime = TickRate.maxTicks := by
  intro atEnd events
  have hclock : ∀ e ∈ events,
      TickRate.minTicks ≤ e.timestamp ∧ e.timestamp ≤ TickRate.maxTicks := by decide
  obtain ⟨-, -, -, -, -, -, hscan⟩ := ofEvents_partitions events
  exact ⟨hclock, hscan hclock, by decide, by decide⟩

end Recording

end EventTrace
