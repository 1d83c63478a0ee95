import EventTrace.Proofs.Depot.Filing
/-!
# Depot — nothing is lost but whole oldest chunks

What a session was given of a thread is what it gave up of that thread and
then what it holds of it, and no move changes that (`Filed.intact_moves`):
what an eviction takes is the oldest of its thread. So after every run the
events that a writer's writes returned true for are there in the order of the
writes, the given up ones first (`Faithful.kept`), and a freeze copies the
rest.
-/

namespace EventTrace

open Depot

/-- The events of a thread. -/
def ofThread (t : Int) (events : List Event) : List Event := events.filter (·.thread == t)

theorem ofThread_append (t : Int) (as bs : List Event) :
    ofThread t (as ++ bs) = ofThread t as ++ ofThread t bs := List.filter_append as bs

theorem ofThread_eq_nil {t : Int} {events : List Event} (h : ∀ e ∈ events, e.thread ≠ t) :
    ofThread t events = [] := by
  refine List.filter_eq_nil_iff.mpr ?_
  intro e he
  simpa using h e he

theorem ofThread_eq_self {t : Int} {events : List Event} (h : ∀ e ∈ events, e.thread = t) :
    ofThread t events = events := by
  refine List.filter_eq_self.mpr ?_
  intro e he
  simpa using h e he

/-- Of chunks of one thread each, the events of a thread are those of the
chunks of that thread. -/
theorem ofThread_flatten {t : Int} {chunks : List (List Event)}
    (h : ∀ events ∈ chunks, ∃ u, ∀ e ∈ events, e.thread = u) :
    ofThread t chunks.flatten = (chunks.filter (·.all (·.thread == t))).flatten := by
  induction chunks with
  | nil => rfl
  | cons events chunks ih =>
    have hrest := ih fun events hin => h events (List.mem_cons_of_mem _ hin)
    obtain ⟨u, hu⟩ := h events List.mem_cons_self
    rw [List.flatten_cons, ofThread_append, hrest, List.filter_cons]
    -- a chunk is of the thread as a whole or has nothing of it
    by_cases hall : events.all (·.thread == t) = true
    · have hself : ofThread t events = events := by
        refine ofThread_eq_self ?_
        intro e he
        simpa using List.all_eq_true.mp hall e he
      rw [if_pos hall, List.flatten_cons, hself]
    · have hnone : ofThread t events = [] := by
        refine ofThread_eq_nil fun e he ht => hall (List.all_eq_true.mpr ?_)
        intro e' he'
        rw [hu e' he', ← hu e he, ht]
        exact beq_self_eq_true t
      rw [if_neg hall, hnone, List.nil_append]

namespace Depot

variable {d d' e : Depot} {c x : ChunkId} {k j : CollectorId} {w v : WriterId} {s : Writer}
  {t : Int} {E E' : List (CollectorId × Int)} {F : List CollectorId}

/-- What a session gave up, and then what it holds. -/
def kept (d : Depot) (k : CollectorId) : List Event :=
  (d.evictions k).flatten ++ (d.contents k).flatten

/-- The chunks of a thread that a session gave up. -/
def givenUpOf (d : Depot) (k : CollectorId) (t : Int) : List (List Event) :=
  (d.evictions k).filter (·.all (·.thread == t))

/-- Every chunk given up held the events of a single thread on record. -/
def GivenAlone (E : List (CollectorId × Int)) (F : List CollectorId) (d : Depot) : Prop :=
  ∀ k ∉ F, ∀ events ∈ d.evictions k, ∃ t, (k, t) ∈ E ∧ ∀ e ∈ events, e.thread = t

/-- Nothing was written and nothing was lost. -/
structure Intact (E : List (CollectorId × Int)) (F : List CollectorId) (d d' : Depot) : Prop where
  kept : ∀ k ∉ F, ∀ t, ofThread t (d'.kept k) = ofThread t (d.kept k)
  sequence : ∀ w s', d'.writer? w = some s' →
    ∃ s, d.writer? w = some s ∧ s'.sequence = s.sequence
  given : GivenAlone E F d → GivenAlone E F d'

namespace Intact

theorem refl (d : Depot) : Intact E F d d := ⟨fun _ _ _ => rfl, fun _ s hw => ⟨s, hw, rfl⟩, id⟩

theorem trans (h : Intact E F d d') (h' : Intact E F d' e) : Intact E F d e where
  kept k hk t := (h'.kept k hk t).trans (h.kept k hk t)
  sequence w s'' hw := by
    obtain ⟨s', hw', hs'⟩ := h'.sequence w s'' hw
    obtain ⟨s, hw, hs⟩ := h.sequence w s' hw'
    exact ⟨s, hw, hs'.trans hs⟩
  given := h'.given ∘ h.given

/-- Where contents and writers are the same nothing happened. -/
theorem of_same (hcontents : ∀ k ∉ F, d'.contents k = d.contents k)
    (hevictions : ∀ k, d'.evictions k = d.evictions k)
    (hsequence : ∀ w s', d'.writer? w = some s' →
      ∃ s, d.writer? w = some s ∧ s'.sequence = s.sequence) : Intact E F d d' where
  kept k hk t := by rw [Depot.kept, Depot.kept, hcontents k hk, hevictions]
  sequence := hsequence
  given h k hk events hin := h k hk events (hevictions k ▸ hin)

theorem of_alike (h : Alike d d') : Intact E F d d' := by
  refine .of_same (fun k _ => h.contents k) h.evictions ?_
  intro w s' hw'
  obtain ⟨s, hw, hcore⟩ := h.writer? hw'
  exact ⟨s, hw, by simpa using (congrArg Writer.sequence hcore).symm⟩

end Intact

/-! ## Moves lose nothing -/

/-- The events of a list of entries. -/
private theorem ofThread_entries {entries : List LedgerEntry}
    (h : ∀ entry ∈ entries, ∀ e ∈ (d.chunk entry.chunk).events, e.thread ≠ t) :
    ofThread t (entries.map fun entry => (d.chunk entry.chunk).events.toList).flatten = [] := by
  refine ofThread_eq_nil ?_
  intro e he
  obtain ⟨events, hevents, he⟩ := List.mem_flatten.mp he
  obtain ⟨entry, hentry, rfl⟩ := List.mem_map.mp hevents
  exact h entry hentry e (Array.mem_toList_iff.mp he)

/-- **What an eviction takes of a thread is the oldest of it.** -/
theorem Filed.kept_move (h : Filed E F d) (hm : Move d d') (hk : k ∉ F) (t : Int) :
    ofThread t (d'.kept k) = ofThread t (d.kept k) := by
  rw [kept, kept]
  cases h.posted.owned.change hm k with
  | same hsame => rw [hsame.contents, hsame.evictions]
  | gaveUp c pre post hledger hpre hopen _ hcontents hevictions =>
    rw [hevictions, hcontents, contents, hledger]
    simp only [List.map_append, List.map_cons, List.flatten_append, List.flatten_cons,
      List.flatten_nil, List.append_nil, ofThread_append, List.append_assoc]
    congr 1
    -- of the thread of its events nothing lies before it, and of others it has none
    by_cases hsome : ∃ e ∈ (d.chunk c).events, e.thread = t
    · obtain ⟨e, he, rfl⟩ := hsome
      rw [ofThread_entries fun entry hentry e' he' =>
        h.apart_of_evicted hledger hpre hopen hk he hentry he', List.nil_append, List.nil_append]
    · have hempty : ofThread t (d.chunk c).events.toList = [] :=
        ofThread_eq_nil fun e he ht => hsome ⟨e, Array.mem_toList_iff.mp he, ht⟩
      rw [hempty, List.nil_append, List.nil_append]
  | entered hcontents hevictions =>
    rw [hcontents, hevictions, List.flatten_append]
    simp

theorem Filed.intact_move (h : Filed E F d) (hm : Move d d') : Intact E F d d' where
  kept k hk t := h.kept_move hm hk t
  sequence w s' hw' := by
    obtain ⟨s, hw, -, -, hsequence, -⟩ := (sameStaff_move hm).writer w s' hw'
    exact ⟨s, hw, hsequence⟩
  given hgiven k hk events hin := by
    cases h.posted.owned.change hm k with
    | same hsame => exact hgiven k hk events (hsame.evictions ▸ hin)
    | gaveUp c pre post hledger _ _ _ _ hevictions =>
      rw [hevictions] at hin
      rcases List.mem_append.mp hin with hin | hin
      · exact hgiven k hk events hin
      · obtain rfl := List.mem_singleton.mp hin
        obtain ⟨t, ht, hall⟩ := h.alone k c hk ⟨⟨c, false⟩, by rw [hledger]; simp, rfl⟩
        exact ⟨t, ht, fun e he => hall e (Array.mem_toList_iff.mp he)⟩
    | entered _ hevictions => exact hgiven k hk events (hevictions ▸ hin)

/-- **Moves lose nothing.** -/
theorem Filed.intact_moves (h : Filed E F d) (hm : Moves d d') : Intact E F d d' := by
  induction hm with
  | refl => exact .refl d
  | tail hmoves hm ih => exact ih.trans ((h.moves hmoves).intact_move hm)

/-! ## Accepted events -/

/-- **An accepted event goes to the end of its thread's**, in its session
only. -/
theorem Filed.kept_accept (h : Filed E F d) (hw : d.writer? w = some s)
    (hs : s.collector = some k) (hc : s.chunk = some c) (hfull : (d.chunk c).isFull = false)
    (event : Event) (hthread : event.thread = s.thread) (hj : j ∉ F) (t : Int) :
    ofThread t ((d.accept k w c event).kept j) =
      ofThread t (d.kept j) ++ if j = k ∧ t = s.thread then [event] else [] := by
  have hseat : Seat d w k s.thread c := ⟨s, hw, hs, rfl, hc⟩
  have hevictions : (d.accept k w c event).evictions j = d.evictions j := rfl
  rw [kept, kept, hevictions]
  by_cases hjk : j = k
  · subst hjk
    -- the event goes to the writer's chunk, and behind that nothing is of its thread
    obtain ⟨pre, post, hledger⟩ := List.append_of_mem (h.posted.seated w j _ c hseat hj)
    rw [h.posted.owned.contents_accept hledger hfull, contents, hledger]
    simp only [List.map_append, List.map_cons, List.flatten_append, List.flatten_cons,
      ofThread_append, List.append_assoc, true_and]
    congr 3
    by_cases ht : t = s.thread
    · have hbehind := ofThread_entries fun entry (hentry : entry ∈ post) =>
        h.apart_of_seat hseat hj hledger hentry
      rw [if_pos ht, ht, hbehind, List.append_nil, List.nil_append,
        ofThread_eq_self (by simpa using hthread)]
    · rw [if_neg ht, List.append_nil, ofThread_eq_nil (by simpa [hthread] using Ne.symm ht),
        List.nil_append]
  · -- the chunk is in the ledger of its session alone
    have hout : ¬ d.Ledgers j c := fun hin => hjk (h.posted.own w k _ c j hseat hin)
    rw [contents_accept_of_not_ledgers hout, if_neg fun hboth => hjk hboth.1, List.append_nil]

/-- One event was written, by a writer of a session and a thread. -/
structure Gained (E : List (CollectorId × Int)) (F : List CollectorId) (w : WriterId)
    (k : CollectorId) (u : Int) (event : Event) (d d' : Depot) : Prop where
  kept : ∀ j ∉ F, ∀ t, ofThread t (d'.kept j) =
    ofThread t (d.kept j) ++ if j = k ∧ t = u then [event] else []
  sequence : ∀ v s', d'.writer? v = some s' → ∃ s, d.writer? v = some s ∧
    s'.sequence = s.sequence + if v = w then 1 else 0
  given : GivenAlone E F d → GivenAlone E F d'

namespace Gained

variable {event : Event}

theorem after (hg : Gained E F w k t event d' e) (h : Intact E F d d') :
    Gained E F w k t event d e where
  kept j hj u := by rw [hg.kept j hj, h.kept j hj]
  sequence v s'' hv := by
    obtain ⟨s', hv', hs'⟩ := hg.sequence v s'' hv
    obtain ⟨s, hv, hs⟩ := h.sequence v s' hv'
    exact ⟨s, hv, by rw [hs', hs]⟩
  given := hg.given ∘ h.given

theorem intact (hg : Gained E F w k t event d d') (h : Intact E F d' e) :
    Gained E F w k t event d e where
  kept j hj u := by rw [h.kept j hj, hg.kept j hj]
  sequence v s'' hv := by
    obtain ⟨s', hv', hs'⟩ := h.sequence v s'' hv
    obtain ⟨s, hv, hs⟩ := hg.sequence v s' hv'
    exact ⟨s, hv, hs'.trans hs⟩
  given := h.given ∘ hg.given

end Gained

/-- What a session gained is the event it accepted. -/
theorem Filed.gained_accept (h : Filed E F d) (hw : d.writer? w = some s)
    (hs : s.collector = some k) (hc : s.chunk = some c) (hfull : (d.chunk c).isFull = false)
    (event : Event) (hthread : event.thread = s.thread) :
    Gained E F w k s.thread event d (d.accept k w c event) where
  kept _ hj t := h.kept_accept hw hs hc hfull event hthread hj t
  sequence v s' hv := by
    obtain ⟨s, hs, rfl⟩ := exists_writer?_accept hv
    exact ⟨s, hs, rfl⟩
  given := id

/-- Screening an event keeps the order. -/
theorem Filed.rescreen (h : Filed E F d) (hw : d.writer? w = some s) (e : Emission) (now : Int) :
    Filed E F (d.rescreen w (s.screen.screen e.id e.kind now).2) :=
  h.alike (h.posted.rescreen hw e now) (alike_rescreen _ _ _)

/-- **A write that is not done loses nothing.** -/
theorem Filed.writeEnds_false {e : Emission} {now : Reading} {r : Bool × Depot}
    (h : Filed E F d) (hends : WriteEnds d w e now r) (hr : r.1 = false) :
    Filed E F r.2 ∧ Intact E F d r.2 := by
  cases hends with
  | closed _ hmoves => exact ⟨h.moves hmoves, h.intact_moves hmoves⟩
  | filtered _ hw _ _ hscreen =>
    subst hscreen
    exact ⟨h.rescreen hw e now.arrival, .of_alike (alike_rescreen _ _ _)⟩
  | refused _ hw _ _ hscreen hbefore hrefuses hafter =>
    subst hscreen
    have hscreened := h.rescreen hw e now.arrival
    -- moves, then one loss counted, then moves again
    have h₁ := hscreened.moves hbefore
    have h₂ := h₁.alike (h₁.posted.alike_of_writers hrefuses.toAlike hrefuses.sameWriters)
      hrefuses.toAlike
    refine ⟨h₂.moves hafter, .trans (.trans ?_ (.of_alike hrefuses.toAlike))
      (h₂.intact_moves hafter)⟩
    exact .trans (.of_alike (alike_rescreen _ _ _)) (hscreened.intact_moves hbefore)
  | written => exact absurd hr (by simp)

/-- **A write that is done adds its event** and loses nothing. -/
theorem Filed.writeEnds_true {e : Emission} {now : Reading} {r : Bool × Depot}
    (h : Filed E F d) (hE : E.Nodup) (hends : WriteEnds d w e now r) (hr : r.1 = true) :
    ∃ k s, d.writer? w = some s ∧ s.collector = some k ∧ Filed E F r.2 ∧
      Gained E F w k s.thread (s.stamped e now.stamp) d r.2 := by
  cases hends with
  | closed => exact absurd hr (by simp)
  | filtered => exact absurd hr (by simp)
  | refused => exact absurd hr (by simp)
  | @written k s screen c d₁ d' hreach hw hs hpasses hscreen hbefore hw₁ hfull hopen hagree =>
    subst hscreen
    have hscreened := h.rescreen hw e now.arrival
    have h₁ := hscreened.moves hbefore
    -- room was made before the event is stamped, so it goes behind whatever is left
    have hbefore : Intact E F d d₁ :=
      .trans (.of_alike (alike_rescreen _ _ _)) (hscreened.intact_moves hbefore)
    have hgained := h₁.gained_accept hw₁ hs rfl hfull (s.stamped e now.stamp) rfl
    have h₂ := h₁.accept hE hw₁ hs rfl hfull (s.stamped e now.stamp) rfl
    exact ⟨k, s, hw, hs, h₂.agree hagree,
      (hgained.after hbefore).intact (.of_alike hagree.toAlike)⟩

end Depot

/-- The event of a write, as the one of its thread in some place. -/
def Attempt.event (a : Attempt) (thread : Int) (place : Nat) : Event :=
  { id := a.emission.id, thread, timestamp := a.now.stamp, kind := a.emission.kind,
    flow := a.emission.flow, value := a.emission.value, sequence := place }

namespace Chronicle

variable {h h' : Chronicle} {k : CollectorId} {w : WriterId} {t : Int} {d' : Depot}

/-- The thread of a writer. -/
def threadOf (h : Chronicle) (w : WriterId) : Int := (h.enrolled[w]?.map Prod.snd).getD 0

/-- The writes of a writer that returned true. -/
def writesOf (h : Chronicle) (w : WriterId) : List Attempt :=
  h.attempts.filter fun a => a.writer == w && a.written

/-- The events of those writes, numbered from zero. -/
def written (h : Chronicle) (w : WriterId) : List Event :=
  (h.writesOf w).mapIdx fun place a => a.event (h.threadOf w) place

theorem length_written (h : Chronicle) (w : WriterId) :
    (h.written w).length = (h.writesOf w).length := List.length_mapIdx

/-- What was written is numbered by its place. -/
theorem sequence_written (h : Chronicle) (w : WriterId) :
    (h.written w).map Event.sequence = (List.range (h.written w).length).map Int.ofNat := by
  refine List.ext_getElem (by simp) ?_
  intro i hi _
  simp [written, Attempt.event]

/-- Nothing is lost of what writers wrote, but for frozen sessions. -/
structure Faithful (h : Chronicle) : Prop where
  staffed : Staffed h
  filed : Filed h.enrolled h.frozen h.depot
  /-- Only writers on record have written. -/
  known : ∀ a ∈ h.attempts, a.written = true → a.writer < h.enrolled.length
  /-- A writer's next event takes the place after those it wrote. -/
  sequence : ∀ w s, h.depot.writer? w = some s → s.sequence = (h.written w).length
  kept : ∀ w k t, h.enrolled[w]? = some (k, t) → k ∉ h.frozen →
    ofThread t (h.depot.kept k) = h.written w
  given : GivenAlone h.enrolled h.frozen h.depot

namespace Faithful

theorem start (capacity : Nat) : Faithful { depot := .ofCapacity capacity } where
  staffed := staffed_start capacity
  filed := .ofCapacity capacity
  known _ ha := absurd ha List.not_mem_nil
  sequence _ _ hw := absurd hw (by simp [writer?, Depot.ofCapacity])
  kept _ _ _ hw := absurd hw (by simp)
  given _ _ _ hin := absurd hin List.not_mem_nil

/-- **Where nothing was written and nothing lost**, the same writes are
kept. -/
theorem of_intact (hf : Faithful h) (hstaffed : Staffed h')
    (hfiled : Filed h.enrolled h.frozen h'.depot) (henrolled : h'.enrolled = h.enrolled)
    (hfrozen : h'.frozen = h.frozen) (hwrites : ∀ w, h'.writesOf w = h.writesOf w)
    (hknown : ∀ a ∈ h'.attempts, a.written = true → a.writer < h.enrolled.length)
    (hintact : Intact h.enrolled h.frozen h.depot h'.depot) : Faithful h' := by
  have hwritten : ∀ w, h'.written w = h.written w := fun w => by
    rw [written, written, hwrites, threadOf, threadOf, henrolled]
  refine ⟨hstaffed, by rwa [henrolled, hfrozen], by rwa [henrolled], ?_, ?_, ?_⟩
  · intro w s hw
    obtain ⟨s₀, hw₀, hsequence⟩ := hintact.sequence w s hw
    rw [hsequence, hwritten]
    exact hf.sequence w s₀ hw₀
  · intro w k t hw hk
    rw [henrolled] at hw
    rw [hfrozen] at hk
    rw [hwritten, hintact.kept k hk]
    exact hf.kept w k t hw hk
  · rw [henrolled, hfrozen]
    exact hintact.given hf.given

/-- A call that tries no write, takes no one on and freezes nothing. -/
theorem quiet (hf : Faithful h) (c : Call) (hattempts : (h.step c).attempts = h.attempts)
    (henrolled : (h.step c).enrolled = h.enrolled) (hfreezes : c.freezes = [])
    (hfiled : Filed h.enrolled h.frozen (c.apply h.depot))
    (hintact : Intact h.enrolled h.frozen h.depot (c.apply h.depot)) : Faithful (h.step c) := by
  have hfrozen : (h.step c).frozen = h.frozen := by
    show c.freezes ++ h.frozen = _
    rw [hfreezes, List.nil_append]
  refine hf.of_intact (hf.staffed.step hf.filed.posted.owned c) hfiled henrolled hfrozen
    ?_ ?_ hintact
  · intro w
    rw [writesOf, hattempts, ← writesOf]
  · intro a ha
    rw [hattempts] at ha
    exact hf.known a ha

/-- A call that only makes moves. -/
theorem moves (hf : Faithful h) (c : Call) (hattempts : (h.step c).attempts = h.attempts)
    (henrolled : (h.step c).enrolled = h.enrolled) (hfreezes : c.freezes = [])
    (hm : Moves h.depot (c.apply h.depot)) : Faithful (h.step c) :=
  hf.quiet c hattempts henrolled hfreezes (hf.filed.moves hm) (hf.filed.intact_moves hm)

/-- The writes of a writer after one more was tried. -/
theorem writesOf_write (h : Chronicle) (w v : WriterId) (e : Emission) (now : Reading) :
    (h.step (.write w e now)).writesOf v = h.writesOf v ++
      if v = w ∧ (h.depot.write w e now).1 = true then [h.attempt w e now] else [] := by
  show (h.attempts ++ [h.attempt w e now]).filter _ = _
  rw [List.filter_append, writesOf]
  congr 1
  by_cases hv : v = w
  · cases hwritten : (h.depot.write w e now).1 with
    | false => simp [attempt, hwritten]
    | true => simp [attempt, hwritten, hv]
  · simp [attempt, hv, Ne.symm hv]

/-- A write that was not done changes nothing that is kept. -/
theorem write_refused (hf : Faithful h) {w : WriterId} {e : Emission} {now : Reading}
    (hresult : (h.depot.write w e now).1 = false) : Faithful (h.step (.write w e now)) := by
  have howned := hf.filed.posted.owned
  obtain ⟨hfiled, hintact⟩ := hf.filed.writeEnds_false (howned.writeEnds w e now) hresult
  refine hf.of_intact (hf.staffed.step howned _) hfiled rfl rfl ?_ ?_ hintact
  · intro v
    rw [writesOf_write, hresult]
    simp
  · intro a ha hwritten
    rcases List.mem_append.mp ha with ha | ha
    · exact hf.known a ha hwritten
    · obtain rfl := List.mem_singleton.mp ha
      exact absurd (hresult.symm.trans hwritten) (by simp)

/-- What a writer wrote after one more write was done. -/
theorem written_write (h : Chronicle) {w : WriterId} {e : Emission} {now : Reading}
    (hdone : (h.depot.write w e now).1 = true) (v : WriterId) :
    (h.step (.write w e now)).written v = h.written v ++ if v = w then
      [(h.attempt w e now).event (h.threadOf w) (h.written w).length] else [] := by
  have hthread : (h.step (.write w e now)).threadOf v = h.threadOf v := rfl
  rw [written, hthread, writesOf_write, hdone]
  by_cases hv : v = w
  · subst hv
    rw [if_pos ⟨rfl, rfl⟩, if_pos rfl, List.mapIdx_concat, length_written, written]
  · rw [if_neg fun hboth => hv hboth.1, if_neg hv, List.append_nil, List.append_nil, written]

/-- A writer stamps its next event as the next of those it wrote. -/
theorem event_attempt {s : Writer} (hrecord : h.enrolled[w]? = some (k, s.thread))
    (hsequence : s.sequence = (h.written w).length) (e : Emission) (now : Reading) :
    (h.attempt w e now).event (h.threadOf w) (h.written w).length = s.stamped e now.stamp := by
  have hthread : h.threadOf w = s.thread := by
    rw [threadOf, hrecord]
    rfl
  rw [Attempt.event, Writer.stamped, hthread, hsequence]
  rfl

/-- **A write that is done is kept at the end** of what its writer wrote. -/
theorem write_done (hf : Faithful h) (hE : h.enrolled.Nodup) {w : WriterId} {e : Emission}
    {now : Reading} (hdone : (h.depot.write w e now).1 = true) :
    Faithful (h.step (.write w e now)) := by
  have howned := hf.filed.posted.owned
  obtain ⟨k, s, hw, hs, hfiled, hgained⟩ :=
    hf.filed.writeEnds_true hE (howned.writeEnds w e now) hdone
  have hrecord : h.enrolled[w]? = some (k, s.thread) := hf.filed.home w s k hw hs
  have hwritten : ∀ v, (h.step (.write w e now)).written v = h.written v ++
      if v = w then [s.stamped e now.stamp] else [] := fun v => by
    rw [written_write h hdone, event_attempt hrecord (hf.sequence w s hw)]
  refine ⟨hf.staffed.step howned _, hfiled, ?_, ?_, ?_, hgained.given hf.given⟩
  · intro a ha hadone
    rcases List.mem_append.mp ha with ha | ha
    · exact hf.known a ha hadone
    · obtain rfl := List.mem_singleton.mp ha
      exact (List.getElem?_eq_some_iff.mp hrecord).1
  · intro v s' hv
    obtain ⟨s₀, hv₀, hsequence⟩ := hgained.sequence v s' hv
    rw [hsequence, hwritten, List.length_append, hf.sequence v s₀ hv₀]
    by_cases hvw : v = w
    · rw [if_pos hvw, if_pos hvw]
      rfl
    · rw [if_neg hvw, if_neg hvw]
      rfl
  · intro v j t hv hj
    have hrecord' : h.enrolled[v]? = some (j, t) := hv
    -- no two writers share a record, so the event is of this writer alone
    have hsame : j = k ∧ t = s.thread ↔ v = w := by
      constructor
      · rintro ⟨rfl, rfl⟩
        have hlt := (List.getElem?_eq_some_iff.mp hrecord').1
        exact (List.getElem?_inj hlt hE).mp (hrecord'.trans hrecord.symm)
      · rintro rfl
        rw [hrecord, Option.some.injEq, Prod.mk.injEq] at hrecord'
        exact ⟨hrecord'.1.symm, hrecord'.2.symm⟩
    refine (hgained.kept j hj t).trans ?_
    rw [hf.kept v j t hrecord' hj, hwritten]
    congr 1
    exact if_congr hsame rfl rfl

/-- **Every write keeps the chronicle faithful.** -/
theorem write (hf : Faithful h) (hE : h.enrolled.Nodup) (w : WriterId) (e : Emission)
    (now : Reading) : Faithful (h.step (.write w e now)) := by
  cases hresult : (h.depot.write w e now).1 with
  | false => exact hf.write_refused hresult
  | true => exact hf.write_done hE hresult

/-- Whatever a session was given is of a thread on record. -/
theorem on_record (hf : Faithful h) (hk : k ∉ h.frozen) {e : Event} (he : e ∈ h.depot.kept k) :
    (k, e.thread) ∈ h.enrolled := by
  rcases List.mem_append.mp he with he | he
  · obtain ⟨events, hevents, he⟩ := List.mem_flatten.mp he
    obtain ⟨t, ht, hall⟩ := hf.given k hk events hevents
    rwa [hall e he]
  · obtain ⟨events, hevents, he⟩ := List.mem_flatten.mp he
    obtain ⟨entry, hentry, rfl⟩ := List.mem_map.mp hevents
    obtain ⟨t, ht, hall⟩ := hf.filed.alone k entry.chunk hk ⟨entry, hentry, rfl⟩
    rwa [hall e (Array.mem_toList_iff.mp he)]

/-- Who was on record wrote the same when one more has come. -/
theorem written_newWriter (h : Chronicle) {k : CollectorId} (hk : k < h.depot.collectors.size)
    (thread : Int) (name : Option String) {w : WriterId} (hw : w < h.enrolled.length) :
    (h.step (.newWriter k thread name)).written w = h.written w := by
  have henrolled := enrolled_newWriter hk thread name
  rw [written, threadOf, henrolled, List.getElem?_append_left hw]
  rfl

/-- Who has just come has written nothing. -/
theorem written_newcomer (hf : Faithful h) (k : CollectorId) (thread : Int)
    (name : Option String) :
    (h.step (.newWriter k thread name)).written h.enrolled.length = [] := by
  have hsame : (h.step (.newWriter k thread name)).writesOf h.enrolled.length =
      h.writesOf h.enrolled.length := rfl
  have hnone : h.writesOf h.enrolled.length = [] := by
    refine List.filter_eq_nil_iff.mpr ?_
    intro a ha hdone
    obtain ⟨heq, hdone⟩ : a.writer = h.enrolled.length ∧ a.written = true := by
      simpa using hdone
    exact Nat.lt_irrefl _ (heq ▸ hf.known a ha hdone)
  rw [written, hsame, hnone]
  rfl

/-- **A writer that comes keeps the chronicle faithful**: its thread is new to
its session. -/
theorem newWriter (hf : Faithful h) {k : CollectorId} (hk : k < h.depot.collectors.size)
    (thread : Int) (name : Option String)
    (hE : (h.enrolled ++ [(k, thread)]).Nodup) : Faithful (h.step (.newWriter k thread name)) := by
  have hstaffed := hf.staffed.step hf.filed.posted.owned (.newWriter k thread name)
  have hdepot := depot_newWriter hk thread name
  have henrolled := enrolled_newWriter hk thread name
  have hfiled := hf.filed.newWriter hf.staffed.length hk thread name
  obtain ⟨d₁, hagree, heq⟩ := newWriter_eq h.depot k thread name
  rw [heq] at hdepot hfiled
  have hlength : d₁.writers.size = h.enrolled.length := by
    rw [hagree.sameWriters, hf.staffed.length]
  have hintact : Intact h.enrolled h.frozen h.depot d₁ := .of_alike hagree.toAlike
  refine ⟨hstaffed, by rwa [hdepot, henrolled], ?_, ?_, ?_, ?_⟩
  · intro a ha hdone
    rw [henrolled, List.length_append]
    exact Nat.lt_add_right 1 (hf.known a ha hdone)
  · intro w s hw
    rw [hdepot] at hw
    by_cases hlast : w = d₁.writers.size
    · rw [hlast, writer?_enlist, Option.some.injEq] at hw
      rw [hlast, hlength, hf.written_newcomer, ← hw]
      rfl
    · rw [writer?_enlist_of_ne hlast, hagree.writer?_eq] at hw
      have hlt := (Array.getElem?_eq_some_iff.mp (getElem?_of_writer? hw)).1
      rw [written_newWriter h hk thread name (hf.staffed.length ▸ hlt)]
      exact hf.sequence w s hw
  · intro w j t hw hj
    rw [hdepot]
    refine (hintact.kept j hj t).trans ?_
    rw [henrolled] at hw
    rcases Nat.lt_or_ge w h.enrolled.length with hlt | hge
    · rw [List.getElem?_append_left hlt] at hw
      rw [written_newWriter h hk thread name hlt]
      exact hf.kept w j t hw hj
    · have hlast : w = h.enrolled.length := by
        have hw := (List.getElem?_eq_some_iff.mp hw).1
        rw [List.length_append] at hw
        exact Nat.le_antisymm (Nat.le_of_lt_succ hw) hge
      rw [hlast, List.getElem?_concat_length, Option.some.injEq, Prod.mk.injEq] at hw
      obtain ⟨rfl, rfl⟩ := hw
      rw [hlast, hf.written_newcomer]
      -- an event of the new thread would put that thread on record already
      refine ofThread_eq_nil ?_
      intro e he ht
      have hrecord := hf.on_record hj he
      rw [ht] at hrecord
      exact (List.nodup_append.mp hE).2.2 _ hrecord _ List.mem_cons_self rfl
  · rw [hdepot, henrolled]
    intro j hj events hin
    obtain ⟨t, ht, hall⟩ := hintact.given hf.given j hj events hin
    exact ⟨t, List.mem_append_left _ ht, hall⟩

/-- A freeze of one session loses nothing of the others. -/
theorem freeze (hf : Faithful h) (k : CollectorId) : Faithful (h.step (.freeze k)) := by
  obtain ⟨-, hfrozen⟩ := freeze_spec h.depot k
  have hout : ∀ j, j ∉ k :: h.frozen → j ≠ k ∧ j ∉ h.frozen := fun j hj => by simpa using hj
  refine ⟨hf.staffed.step hf.filed.posted.owned _, hf.filed.freeze k, hf.known, ?_, ?_, ?_⟩
  · intro w s hw
    exact hf.sequence w s (writer?_freeze h.depot k w ▸ hw)
  · intro w j t hw hj
    -- nothing more is said of the session frozen
    obtain ⟨hjk, hjF⟩ := hout j hj
    show ofThread t ((h.depot.freeze k).2.kept j) = _
    rw [Depot.kept, contents_freeze h.depot hjk, hfrozen.evictions, ← Depot.kept]
    exact hf.kept w j t hw hjF
  · intro j hj events hin
    have hin : events ∈ (h.depot.freeze k).2.evictions j := hin
    rw [hfrozen.evictions] at hin
    exact hf.given j (hout j hj).2 events hin

/-- **Every call keeps the chronicle faithful.** -/
theorem step (hf : Faithful h) (c : Call) (hE : (h.step c).enrolled.Nodup) :
    Faithful (h.step c) := by
  cases c with
  | newCollector o =>
    exact hf.quiet _ rfl rfl rfl (hf.filed.newCollector o)
      (.of_same (fun k _ => contents_newCollector h.depot o k) (fun _ => rfl)
        fun w s hw => ⟨s, hw, rfl⟩)
  | newWriter k thread name =>
    by_cases hk : k < h.depot.collectors.size
    · have henrolled := enrolled_newWriter hk thread name
      exact hf.newWriter hk thread name (henrolled ▸ hE)
    · have hsame : (Call.newWriter k thread name).apply h.depot = h.depot := if_neg hk
      refine hf.quiet _ rfl (if_neg hk) rfl ?_ ?_
      · rw [hsame]
        exact hf.filed
      · rw [hsame]
        exact .refl _
  | write w e now => exact hf.write hE w e now
  | detach w => exact hf.moves _ rfl rfl rfl (moves_detach _ w)
  | dropWriter w => exact hf.moves _ rfl rfl rfl (moves_dropWriter _ w)
  | close k => exact hf.moves _ rfl rfl rfl (.single (.turn k (.close _)))
  | closeWriters k =>
    exact hf.moves _ rfl rfl rfl (.of_agree (agree_closeWriters _ k))
  | freeze k => exact hf.freeze k

/-- **Nothing but whole oldest chunks is lost after any run** of writers of
different threads. -/
theorem ofCalls (capacity : Nat) (calls : List Call) :
    (Chronicle.ofCalls capacity calls).enrolled.Nodup →
      Faithful (Chronicle.ofCalls capacity calls) := by
  refine ofCalls_induction (P := fun h => h.enrolled.Nodup → Faithful h) capacity
    (fun _ => start capacity) (fun h c ih hE => (ih ?_).step c hE) calls
  cases c with
  | newWriter k thread name =>
    dsimp only [Chronicle.step] at hE
    split at hE
    · exact (List.nodup_append.mp hE).1
    · exact hE
  | _ => exact hE

/-- What a writer wrote is what its session gave up of it, and then what a
freeze copies. -/
theorem written_eq (hf : Faithful h) (hw : h.enrolled[w]? = some (k, t)) (hk : k ∉ h.frozen) :
    h.written w = (h.depot.givenUpOf k t).flatten ++
      ofThread t (h.depot.freeze k).1.flatten := by
  have hgiven : ofThread t (h.depot.evictions k).flatten =
      (h.depot.givenUpOf k t).flatten := by
    refine ofThread_flatten ?_
    intro events hin
    obtain ⟨u, -, hu⟩ := hf.given k hk events hin
    exact ⟨u, hu⟩
  rw [← hf.kept w k t hw hk, Depot.kept, ofThread_append, hgiven, flatten_freeze]

/-- Whatever a session was given was written by a writer of that thread. -/
theorem exists_writer (hf : Faithful h) (hk : k ∉ h.frozen) (hrecord : (k, t) ∈ h.enrolled)
    {events : List Event} (hkept : ∀ e ∈ events, e ∈ h.depot.kept k)
    (hthread : ∀ e ∈ events, e.thread = t) :
    ∃ w t, h.enrolled[w]? = some (k, t) ∧ ∀ e ∈ events, e.thread = t ∧ e ∈ h.written w := by
  obtain ⟨w, hw⟩ := List.getElem?_of_mem hrecord
  refine ⟨w, t, hw, fun e he => ⟨hthread e he, ?_⟩⟩
  rw [← hf.kept w k t hw hk]
  exact List.mem_filter.mpr ⟨hkept e he, by simpa using hthread e he⟩

end Faithful

end Chronicle

/-- **A freeze loses, repeats and leaks nothing.** Where the writers of each
session are of different threads, what a first freeze copies of a writer is
what its writes returned true for, in their order and numbered by it, but for
the chunks of it that were given up, which are the first; and every chunk that
is copied or was given up is the work of one writer of the session. -/
theorem freeze_faithful (capacity : Nat) (calls : List Call) (k : CollectorId)
    (hE : (Chronicle.ofCalls capacity calls).enrolled.Nodup)
    (hk : k ∉ (Chronicle.ofCalls capacity calls).frozen) :
    let h := Chronicle.ofCalls capacity calls
    let chunks := (h.depot.freeze k).1
    (∀ w t, h.enrolled[w]? = some (k, t) →
      let lost := (h.depot.givenUpOf k t).flatten
      let copied := ofThread t chunks.flatten
      h.written w = lost ++ copied ∧
      copied.map Event.sequence = (List.range' lost.length copied.length).map Int.ofNat ∧
      ∀ s, h.depot.writer? w = some s → s.sequence = lost.length + copied.length) ∧
    (∀ events ∈ chunks, events ≠ [] ∧
      ∃ w t, h.enrolled[w]? = some (k, t) ∧ ∀ e ∈ events, e.thread = t ∧ e ∈ h.written w) ∧
    ∀ events ∈ h.depot.evictions k,
      ∃ w t, h.enrolled[w]? = some (k, t) ∧ ∀ e ∈ events, e.thread = t ∧ e ∈ h.written w := by
  intro h chunks
  have hf : h.Faithful := .ofCalls capacity calls hE
  refine ⟨?_, ?_, ?_⟩
  · intro w t hw lost copied
    have hwritten : h.written w = lost ++ copied := hf.written_eq hw hk
    refine ⟨hwritten, ?_, ?_⟩
    · -- all that was written is numbered from zero, so what is copied ends those numbers
      have hnumbers := h.sequence_written w
      rw [hwritten, List.map_append, List.length_append, List.range_eq_range',
        ← List.range'_append_1, List.map_append, Nat.zero_add] at hnumbers
      exact (List.append_inj hnumbers (by simp)).2
    · intro s hs
      rw [hf.sequence w s hs, hwritten, List.length_append]
      exact Int.natCast_add _ _
  · intro events hin
    have hin : events ∈ (h.depot.freeze k).1 := hin
    rw [(freeze_spec h.depot k).1, List.mem_filter] at hin
    obtain ⟨hin, hnonempty⟩ := hin
    have hkept : ∀ e ∈ events, e ∈ h.depot.kept k := fun e he =>
      List.mem_append_right _ (List.mem_flatten.mpr ⟨events, hin, he⟩)
    obtain ⟨entry, hentry, rfl⟩ := List.mem_map.mp hin
    obtain ⟨t, ht, hall⟩ := hf.filed.alone k entry.chunk hk ⟨entry, hentry, rfl⟩
    exact ⟨by simpa using hnonempty,
      hf.exists_writer hk ht hkept fun e he => hall e (Array.mem_toList_iff.mp he)⟩
  · intro events hin
    obtain ⟨t, ht, hall⟩ := hf.given k hk events hin
    exact hf.exists_writer hk ht (fun e he =>
      List.mem_append_left _ (List.mem_flatten.mpr ⟨events, hin, he⟩)) hall

/-- Two threads write by turns in a session that may hold two events. -/
def Chronicle.twoThreads : Chronicle :=
  let e : Emission := { id := 7, kind := .instant }
  ofCalls 1 [.newCollector { maxTotalEvents := 2, policy := .dropOldest }, .newWriter 0 1 none,
    .newWriter 0 2 none, .write 0 e ⟨0, 0⟩, .write 0 e ⟨1, 1⟩, .write 1 e ⟨2, 2⟩, .close 0]

/-- The first event of one thread is given up; its second and the other's
first are copied. -/
theorem freeze_faithful_twoThreads :
    (Chronicle.twoThreads.written 0).length = 2 ∧
    Chronicle.twoThreads.written 0 =
      (Chronicle.twoThreads.depot.givenUpOf 0 1).flatten ++
        ofThread 1 (Chronicle.twoThreads.depot.freeze 0).1.flatten ∧
    (Chronicle.twoThreads.depot.givenUpOf 0 1).flatten.length = 1 ∧
    Chronicle.twoThreads.written 1 =
      (Chronicle.twoThreads.depot.givenUpOf 0 2).flatten ++
        ofThread 2 (Chronicle.twoThreads.depot.freeze 0).1.flatten ∧
    Chronicle.twoThreads.depot.givenUpOf 0 2 = [] := by
  obtain ⟨hwriters, -, -⟩ := freeze_faithful 1 _ 0 (by decide : Chronicle.twoThreads.enrolled.Nodup)
    (by decide)
  exact ⟨by decide, (hwriters 0 1 rfl).1, by decide, (hwriters 1 2 rfl).1, by decide⟩

end EventTrace
