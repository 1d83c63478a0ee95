import EventTrace.Proofs.Depot.Feeding
/-!
# Depot — what spares every event held

Most of what is done for a write costs no session an event: bookkeeping, a
chunk let go or taken up, an eviction of a chunk without events or in another
session. Each of them spares the session (`Spares`): its chunks with events
are what they were, so is the word that counts these, at most empty chunks
were given up, and every writer is where it was in its sequence. A refusal
spares the session as well, and is counted by one cause.
-/

namespace EventTrace

/-- Why an event is not held. -/
inductive Cause where
  /-- It met a cap, or was given up with its chunk. -/
  | dropped
  | sampledOut
  | rateLimited
deriving DecidableEq, Repr

/-- How many events a session counts as lost by a cause. -/
def Collector.lostBy (s : Collector) : Cause → Nat
  | .dropped => s.losses.droppedEvents
  | .sampledOut => s.losses.sampledOut
  | .rateLimited => s.losses.rateLimited

namespace Depot

variable {d d' e : Depot} {c : ChunkId} {k j : CollectorId} {w v : WriterId} {s : Writer}
  {cause : Option Cause}

/-- The chunks of a session's ledger that have events, each with these, the
oldest first. -/
def filled (d : Depot) (k : CollectorId) : List (ChunkId × List Event) :=
  ((d.collector k).ledger.map fun entry =>
    (entry.chunk, (d.chunk entry.chunk).events.toList)).filter fun p => !p.2.isEmpty

theorem filled_eq (d : Depot) (k : CollectorId) : d.filled k =
    (((d.collector k).ledger.map LedgerEntry.chunk).map fun c =>
      (c, (d.chunk c).events.toList)).filter fun p => !p.2.isEmpty := by
  rw [filled, List.map_map]
  rfl

/-- A chunk of a ledger with events, and the older ones before it. -/
theorem filled_of_ledger {pre post : List LedgerEntry} {entry : LedgerEntry}
    (hledger : (d.collector k).ledger = pre ++ entry :: post)
    (hevents : (d.chunk entry.chunk).events ≠ #[]) :
    ∃ older younger,
      d.filled k = older ++ (entry.chunk, (d.chunk entry.chunk).events.toList) :: younger ∧
        ∀ p ∈ older, ∃ e ∈ pre, e.chunk = p.1 ∧ (d.chunk e.chunk).events ≠ #[] := by
  simp only [filled, hledger, List.map_append, List.map_cons, List.filter_append]
  rw [List.filter_cons_of_pos (by simpa using hevents)]
  refine ⟨_, _, rfl, fun p hp => ?_⟩
  rw [List.mem_filter, List.mem_map] at hp
  obtain ⟨⟨e, he, rfl⟩, hp⟩ := hp
  exact ⟨e, he, rfl, by simpa using hp⟩

/-- The same chunks with the same events. -/
theorem filled_congr
    (hledger : (d'.collector k).ledger.map LedgerEntry.chunk =
      (d.collector k).ledger.map LedgerEntry.chunk)
    (hevents : ∀ c, d.Ledgers k c → (d'.chunk c).events = (d.chunk c).events) :
    d'.filled k = d.filled k := by
  rw [filled_eq, filled_eq, hledger]
  refine congrArg (List.filter _) (List.map_congr_left fun c hc => ?_)
  rw [hevents c (ledgers_iff.mpr hc)]

/-- A session's events are spared, and one event more is counted as lost if
there is a cause. -/
structure Spares (k : CollectorId) (cause : Option Cause) (d d' : Depot) : Prop where
  filled : d'.filled k = d.filled k
  eventCount : (d'.collector k).eventCount = (d.collector k).eventCount
  options : (d'.collector k).options = (d.collector k).options
  lostBy : ∀ c, (d'.collector k).lostBy c =
    (d.collector k).lostBy c + if cause = some c then 1 else 0
  /-- No more than empty chunks were given up. -/
  evictions : ∃ n, d'.evictions k = d.evictions k ++ List.replicate n []
  sequence : ∀ v, (d'.writer? v).map Writer.sequence = (d.writer? v).map Writer.sequence

namespace Spares

theorem refl (k : CollectorId) (d : Depot) : Spares k none d d :=
  ⟨rfl, rfl, rfl, fun _ => rfl, ⟨0, (List.append_nil _).symm⟩, fun _ => rfl⟩

/-- Whatever is counted as lost may be counted first or last. -/
theorem evictions_trans {n n' : Nat} (h : d'.evictions k = d.evictions k ++ List.replicate n [])
    (h' : e.evictions k = d'.evictions k ++ List.replicate n' []) :
    e.evictions k = d.evictions k ++ List.replicate (n + n') [] := by
  rw [h', h, List.append_assoc, List.replicate_append_replicate]

theorem after (h : Spares k cause d' e) (h' : Spares k none d d') : Spares k cause d e where
  filled := h.filled.trans h'.filled
  eventCount := h.eventCount.trans h'.eventCount
  options := h.options.trans h'.options
  lostBy c := by rw [h.lostBy, h'.lostBy]; rfl
  evictions := by
    obtain ⟨n, hn⟩ := h'.evictions
    obtain ⟨n', hn'⟩ := h.evictions
    exact ⟨n + n', evictions_trans hn hn'⟩
  sequence v := (h.sequence v).trans (h'.sequence v)

theorem then_none (h : Spares k cause d d') (h' : Spares k none d' e) : Spares k cause d e where
  filled := h'.filled.trans h.filled
  eventCount := h'.eventCount.trans h.eventCount
  options := h'.options.trans h.options
  lostBy c := by rw [h'.lostBy, h.lostBy]; rfl
  evictions := by
    obtain ⟨n, hn⟩ := h.evictions
    obtain ⟨n', hn'⟩ := h'.evictions
    exact ⟨n + n', evictions_trans hn hn'⟩
  sequence v := (h'.sequence v).trans (h.sequence v)

/-! ### Bookkeeping -/

theorem sequence_of_alike (h : Alike d d') (v : WriterId) :
    (d'.writer? v).map Writer.sequence = (d.writer? v).map Writer.sequence := by
  have hcore := congrArg (Option.map Writer.sequence) (h.core_writer? v)
  simpa only [Option.map_map, Function.comp_def, Writer.core_sequence] using hcore

/-- Bookkeeping spares every event. -/
theorem of_alike (h : Alike d d') (hlost : ∀ c, (d'.collector k).lostBy c =
    (d.collector k).lostBy c + if cause = some c then 1 else 0) : Spares k cause d d' where
  filled := filled_congr (by rw [h.ledger]) fun c _ => by rw [h.chunk]
  eventCount := h.eventCount k
  options := h.options k
  lostBy := hlost
  evictions := ⟨0, (h.evictions k).trans (List.append_nil _).symm⟩
  sequence := sequence_of_alike h

theorem signal (d : Depot) (j k : CollectorId) (reason : Reason) :
    Spares k none d (d.signal j reason) := by
  refine .of_alike (agree_signal d j reason).toAlike fun c => ?_
  unfold Depot.signal
  dsimp only
  split
  · rfl
  · exact congr_modifyCollector (fun s => s.lostBy c) (fun _ => by cases c <;> rfl) k

/-- A loss that is counted in one session. -/
theorem modifyCollector (hj : j < d.collectors.size) {f : Collector → Collector} {cause : Cause}
    (hcore : ∀ s, (f s).core = s.core)
    (hlost : ∀ s c, (f s).lostBy c = s.lostBy c + if cause = c then 1 else 0) (k : CollectorId) :
    Spares k (if j = k then some cause else none) d (d.modifyCollector j f) := by
  refine .of_alike (.modifyCollector hcore) fun c => ?_
  by_cases hjk : j = k
  · subst hjk
    rw [collector_modifyCollector hj, hlost, if_pos rfl]
    simp only [Option.some.injEq]
  · rw [collector_modifyCollector_of_ne (Ne.symm hjk), if_neg hjk]
    rfl

/-- **Each cause counts one event, once.** -/
theorem recordDropped (hj : j < d.collectors.size) (reason : Reason) (k : CollectorId) :
    Spares k (if j = k then some .dropped else none) d (d.recordDropped j reason) := by
  refine (modifyCollector hj ?_ ?_ k).then_none (.signal _ j k reason)
  · exact fun _ => rfl
  · exact fun _ c => by cases c <;> rfl

theorem recordSampledOut (hj : j < d.collectors.size) (k : CollectorId) :
    Spares k (if j = k then some .sampledOut else none) d (d.recordSampledOut j) := by
  refine modifyCollector hj ?_ ?_ k
  · exact fun _ => rfl
  · exact fun _ c => by cases c <;> rfl

theorem recordRateLimited (hj : j < d.collectors.size) (k : CollectorId) :
    Spares k (if j = k then some .rateLimited else none) d (d.recordRateLimited j) := by
  refine (modifyCollector hj ?_ ?_ k).then_none (.signal _ j k .rateLimit)
  · exact fun _ => rfl
  · exact fun _ c => by cases c <;> rfl

/-! ### Sessions and writers that come and go -/

/-- What changes no collector but in its ledger, and moves no chunk. -/
theorem of_same (h : Same k d d') (hsequence : ∀ v, (d'.writer? v).map Writer.sequence =
      (d.writer? v).map Writer.sequence)
    (hledger : (d'.collector k).ledger.map LedgerEntry.chunk =
      (d.collector k).ledger.map LedgerEntry.chunk)
    (hevents : ∀ c, d.Ledgers k c → (d'.chunk c).events = (d.chunk c).events)
    (hoptions : (d'.collector k).options = (d.collector k).options)
    (hlosses : (d'.collector k).losses = (d.collector k).losses) : Spares k none d d' where
  filled := filled_congr hledger hevents
  eventCount := h.eventCount
  options := hoptions
  lostBy c := by
    cases c <;> simp only [Collector.lostBy, hlosses] <;> rfl
  evictions := ⟨0, h.evictions.trans (List.append_nil _).symm⟩
  sequence := hsequence

theorem close (d : Depot) (j k : CollectorId) : Spares k none d (d.close j) := by
  refine .of_same (same_close d j k) (fun _ => rfl) ?_ (fun _ _ => rfl) ?_ ?_
  · rw [(Still.close d j).ledger]
  · refine congr_modifyCollector Collector.options ?_ k
    intro _
    rfl
  · refine congr_modifyCollector Collector.losses ?_ k
    intro _
    rfl

theorem losses_letGo (d : Depot) (w : WriterId) (j k : CollectorId) :
    ((d.letGo w j).collector k).losses = (d.collector k).losses := by
  unfold letGo releaseChunk
  split
  · rfl
  · split
    · rw [collector, giveBack_collectors]
      rfl
    · rw [collector_markIdle]
      rfl

theorem letGo (h : Owned d) (hw : d.writer? w = some s) (hs : s.collector = some j)
    (k : CollectorId) : Spares k none d (d.letGo w j) := by
  have hquiet := h.quiet_letGo hw hs
  refine .of_same (same_letGo d w j k) (fun v => ?_) (hquiet.entries k) (fun c hc => ?_)
    (options_letGo d w j k) (losses_letGo d w j k)
  · by_cases hv : v = w
    · subst hv
      rw [writer?_letGo hw, hw]
      rfl
    · rw [writer?_letGo_of_ne hv]
  · exact hquiet.events c (Nat.le_add_right_of_le (ledgered_pos (hquiet.ledgers.mpr hc)))

/-- A writer's chunk and its session are no event of a session. -/
theorem modifyWriter {f : Writer → Writer} (hf : ∀ s, (f s).sequence = s.sequence)
    (k : CollectorId) : Spares k none d (d.modifyWriter w f) := by
  refine .of_same (same_modifyWriter d w f k) (fun v => ?_) rfl (fun _ _ => rfl) rfl rfl
  by_cases hv : v = w
  · subst hv
    rw [writer?_modifyWriter, Option.map_map]
    exact congrArg (Option.map · (d.writer? v)) (funext hf)
  · rw [writer?_modifyWriter_of_ne hv]

theorem leave (d : Depot) (w : WriterId) (k : CollectorId) : Spares k none d (d.leave w) := by
  refine modifyWriter ?_ k
  exact fun _ => rfl

/-- A writer that is detached costs no session an event. -/
theorem detach (h : Owned d) (w : WriterId) (k : CollectorId) : Spares k none d (d.detach w) := by
  unfold Depot.detach
  cases hw : d.writer? w with
  | none => exact .refl k d
  | some s =>
    have hclosed : Spares k none d (d.closeLink s.link) :=
      .of_alike (agree_closeLink d s.link).toAlike fun _ => rfl
    dsimp only
    cases hs : s.collector with
    | none => exact hclosed
    | some j =>
      have hw' : (d.closeLink s.link).writer? w = some s := hw
      have howned := h.alike (agree_closeLink d s.link).toAlike
      -- it lets go and leaves, in whichever order
      have hgone := (leave ((d.closeLink s.link).letGo w j) w k).after (letGo howned hw' hs k)
      have hboth := hgone.after hclosed
      rwa [← letGo_leave] at hboth

/-! ### Chunks that come and go -/

/-- A chunk taken up is empty. -/
theorem enterChunk (h : Owned d) (j k : CollectorId) : Spares k none d (d.enterChunk j).2 := by
  have hevents : ∀ c, ((d.enterChunk j).2.chunk c).events = (d.chunk c).events := take_events d
  have hcollector := collector_enterChunk d j k
  refine ⟨?_, by rw [hcollector], by rw [hcollector], fun c => ?_,
    ⟨0, (evictions_enterChunk d j k).trans (List.append_nil _).symm⟩, fun v => ?_⟩
  · by_cases hk : k = j ∧ j < d.collectors.size
    · obtain ⟨rfl, hlt⟩ := hk
      simp only [Depot.filled, ledger_enterChunk hlt, hevents, List.map_append, List.map_cons,
        h.events_fresh, List.map_nil, List.filter_append]
      exact List.append_nil _
    · refine filled_congr ?_ fun c _ => hevents c
      by_cases hkj : k = j
      · have hge : d.collectors.size ≤ j := Nat.le_of_not_lt fun hlt => hk ⟨hkj, hlt⟩
        rw [hkj, collector_of_ge hge, collector_of_ge (by rwa [size_enterChunk])]
      · rw [collector_enterChunk_of_ne hkj]
  · rw [hcollector]
    cases c <;> rfl
  · rw [writer?, enterChunk_writers, ← writer?]

theorem hold (h : Owned d) (w : WriterId) (j k : CollectorId) : Spares k none d (d.hold w j) := by
  refine (modifyWriter ?_ k).after (enterChunk h j k)
  exact fun _ => rfl

/-- An eviction in another session. -/
theorem evict_of_ne (hevict : d.evictOldest? j = some d') (hk : k ≠ j) : Spares k none d d' := by
  obtain ⟨-, -, -, -, -, -, hothers⟩ := collector_evictOldest? hevict
  have hsame := hothers k hk
  refine .of_same (same_evict hevict hk) (fun v => ?_) (by rw [hsame]) (fun c hc => ?_)
    (by rw [hsame]) (by rw [hsame])
  · rw [writer?, writers_evictOldest? hevict, ← writer?]
  · have hledgers : d'.Ledgers k c := by rwa [Ledgers, hsame]
    exact events_evict hevict (Nat.le_add_right_of_le (ledgered_pos hledgers))

/-- What asks for the count of events finds the same room. -/
theorem hasEventRoom (h : Spares k cause d d') :
    (d'.collector k).hasEventRoom = (d.collector k).hasEventRoom := by
  rw [Collector.hasEventRoom, Collector.hasEventRoom, h.eventCount, h.options]

end Spares

/-! ## Evictions -/

/-- The chunks with events that an eviction leaves. -/
theorem filled_evict {pre post : List LedgerEntry} (hevict : d.evictOldest? k = some d')
    (hledger : (d'.collector k).ledger = pre ++ post) :
    d'.filled k = ((pre ++ post).map fun entry =>
      (entry.chunk, (d.chunk entry.chunk).events.toList)).filter fun p => !p.2.isEmpty := by
  rw [filled, hledger]
  refine congrArg (List.filter _) (List.map_congr_left fun entry hentry => ?_)
  have hmem : entry ∈ (d'.collector k).ledger := hledger ▸ hentry
  rw [events_evict hevict (Nat.le_add_right_of_le (ledgered_pos (ledgers_of_mem hmem)))]

/-- **An eviction of an empty chunk spares the session.** -/
theorem Spares.evict_of_empty {pre post : List LedgerEntry} (hevict : d.evictOldest? k = some d')
    (hledger : (d.collector k).ledger = pre ++ ⟨c, false⟩ :: post)
    (hgiven : d'.collector k = (d.collector k).giveUp (pre ++ post) (d.chunk c).size)
    (hevictions : d'.evictions k = d.evictions k ++ [(d.chunk c).events.toList])
    (hempty : (d.chunk c).events = #[]) : Spares k none d d' where
  filled := by
    rw [filled_evict hevict (by rw [hgiven]; rfl), Depot.filled, hledger]
    simp [hempty]
  eventCount := by
    rw [hgiven, Chunk.size, hempty]
    exact UInt64.sub_zero _
  options := by rw [hgiven]; rfl
  lostBy cause := by
    rw [hgiven, Chunk.size, hempty]
    cases cause <;> rfl
  evictions := ⟨1, by rw [hevictions, hempty]; rfl⟩
  sequence v := by rw [writer?, writers_evictOldest? hevict, ← writer?]

end Depot

end EventTrace
