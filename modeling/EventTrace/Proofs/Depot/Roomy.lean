import EventTrace.Proofs.Depot.Faithful
/-!
# Depot — writing where there is always room

Without a cap on chunks or events a session never refuses for want of room,
so a write of an open writer is done exactly if it passes the writer's tests
(`Filed.write`). It is the writer's own affair: other writers, close flags,
and who is closed stay as they are (`Solo`), and so does what every session
holds but for the one event, which goes behind those of its thread.
-/

namespace EventTrace

open Depot

/-- Whether neither chunks nor events are capped. -/
def Options.isUncapped (o : Options) : Bool := o.maxTotalEvents == 0 && o.maxTotalChunks == 0

namespace Collector

variable {s : Collector}

theorem hasChunkRoom_of_isUncapped (h : s.options.isUncapped = true) : s.hasChunkRoom = true := by
  rw [Options.isUncapped, Bool.and_eq_true] at h
  rw [hasChunkRoom, h.2, Bool.true_or]

theorem hasEventRoom_of_isUncapped (h : s.options.isUncapped = true) : s.hasEventRoom = true := by
  rw [Options.isUncapped, Bool.and_eq_true] at h
  rw [hasEventRoom, h.1, Bool.true_or]

end Collector

namespace Depot

variable {d d' e : Depot} {c : ChunkId} {k j : CollectorId} {w v : WriterId} {s : Writer}
  {t : Int} {E : List (CollectorId × Int)} {F : List CollectorId}

/-- What a session holds of a thread. -/
def heldOf (d : Depot) (k : CollectorId) (t : Int) : List Event :=
  ofThread t (d.contents k).flatten

/-! ## One writer's affairs -/

/-- Other writers are as they were, no close flag was raised, no session was
closed and nothing given up. -/
structure Solo (w : WriterId) (d d' : Depot) : Prop where
  others : ∀ v ≠ w, d'.writer? v = d.writer? v
  links : ∀ l, d.isLinkClosed l = false → d'.isLinkClosed l = false
  closed : ∀ k, (d'.collector k).closed = (d.collector k).closed
  options : ∀ k, (d'.collector k).options = (d.collector k).options
  evictions : ∀ k, d'.evictions k = d.evictions k

namespace Solo

theorem refl (d : Depot) : Solo w d d :=
  ⟨fun _ _ => rfl, fun _ => id, fun _ => rfl, fun _ => rfl, fun _ => rfl⟩

theorem trans (h : Solo w d d') (h' : Solo w d' e) : Solo w d e where
  others v hv := (h'.others v hv).trans (h.others v hv)
  links l hl := h'.links l (h.links l hl)
  closed k := (h'.closed k).trans (h.closed k)
  options k := (h'.options k).trans (h.options k)
  evictions k := (h'.evictions k).trans (h.evictions k)

/-- A loss that is counted. -/
theorem of_refuses (h : Refuses k d d') (hlinks : d'.links = d.links) : Solo w d d' where
  others v _ := by rw [writer?, h.sameWriters, ← writer?]
  links l hl := by rwa [isLinkClosed, hlinks]
  closed := h.closed
  options := h.options
  evictions := h.evictions

theorem modifyWriter (d : Depot) (w : WriterId) (f : Writer → Writer) :
    Solo w d (d.modifyWriter w f) where
  others _ hv := writer?_modifyWriter_of_ne hv
  links _ hl := hl
  closed _ := rfl
  options _ := rfl
  evictions _ := rfl

theorem vacate (d : Depot) (w : WriterId) : Solo w d (d.vacate w) where
  others _ hv := writer?_vacate_of_ne hv
  links _ hl := hl
  closed _ := rfl
  options _ := rfl
  evictions _ := rfl

theorem letGo (d : Depot) (w : WriterId) (k : CollectorId) : Solo w d (d.letGo w k) where
  others _ hv := writer?_letGo_of_ne hv
  links l hl := by
    have hback : ∀ (e : Depot) (c : ChunkId), (e.giveBack c).2.links = e.links := by
      intro e c
      unfold giveBack
      split <;> rfl
    have hlinks : (d.letGo w k).links = d.links := by
      unfold Depot.letGo releaseChunk
      split
      · rfl
      · split
        · exact hback _ _
        · rfl
    rwa [isLinkClosed, hlinks]
  closed := closed_letGo d w k
  options := options_letGo d w k
  evictions j := (same_letGo d w k j).evictions

theorem hold (d : Depot) (w : WriterId) (k : CollectorId) : Solo w d (d.hold w k) where
  others _ hv := writer?_hold_of_ne hv
  links l hl := by
    have hlinks : (d.hold w k).links = d.links := by
      show d.take.2.links = d.links
      unfold take
      split <;> rfl
    rwa [isLinkClosed, hlinks]
  closed := hold_closed d w k
  options j := by
    show ((d.enterChunk k).2.collector j).options = _
    rw [collector_enterChunk]
  evictions := evictions_enterChunk d k

theorem accept (d : Depot) (k : CollectorId) (w : WriterId) (c : ChunkId) (event : Event) :
    Solo w d (d.accept k w c event) where
  others _ hv := writer?_accept_of_ne hv event
  links _ hl := hl
  closed j := by rw [collector_accept]
  options j := by rw [collector_accept]
  evictions _ := rfl

/-- A writer that is dropped leaves the others alone. -/
theorem dropWriter (d : Depot) (w : WriterId) : Solo w d (d.dropWriter w) := by
  unfold Depot.dropWriter
  split
  · exact .refl d
  · dsimp only
    split
    · exact .vacate d w
    · exact (letGo d w _).trans (.vacate _ w)

end Solo

/-! ## New writers -/

theorem links_newWriter (d : Depot) (k : CollectorId) (thread : Int) (name : Option String) :
    (d.newWriter k thread name).2.links = d.links.push false := by
  cases name with
  | none => rfl
  | some name =>
    show ((d.newLink.2.registerLink k d.newLink.1).nameThread k thread name).links = _
    unfold nameThread
    split <;> rfl

/-- A new writer comes beside the others. -/
theorem solo_newWriter (d : Depot) (k : CollectorId) (thread : Int) (name : Option String) :
    Solo d.writers.size d (d.newWriter k thread name).2 := by
  obtain ⟨d₁, hagree, heq⟩ := newWriter_eq d k thread name
  refine ⟨?_, ?_, ?_, ?_, ?_⟩
  · intro v hv
    rw [heq, writer?_enlist_of_ne (by rwa [hagree.sameWriters]), hagree.writer?_eq]
  · intro l hl
    have hlt : l < d.links.size := by
      by_contra hge
      rw [isLinkClosed, Array.getElem?_eq_none (Nat.le_of_not_lt hge)] at hl
      exact absurd hl (by simp)
    rw [isLinkClosed, links_newWriter, Array.getElem?_push, if_neg (Nat.ne_of_lt hlt)]
    exact hl
  all_goals
    intro j
    rw [heq]
  · exact hagree.closed j
  · exact hagree.options j
  · exact hagree.evictions j

/-- A new writer has its close flag down, and the tests its session asks
for. -/
theorem writer?_newWriter (d : Depot) (k : CollectorId) (thread : Int) (name : Option String) :
    (d.newWriter k thread name).2.writer? d.writers.size =
        some { collector := some k, link := d.links.size, thread,
               screen := Screen.ofOptions (d.collector k).options } ∧
      (d.newWriter k thread name).2.isLinkClosed d.links.size = false := by
  constructor
  · obtain ⟨d₁, hagree, heq⟩ := newWriter_eq d k thread name
    rw [heq, ← hagree.sameWriters, writer?_enlist]
  · rw [isLinkClosed, links_newWriter, Array.getElem?_push_size]
    rfl

/-! ## Room -/

variable {event : Event}

/-- **A session without caps finds a writer room.** -/
theorem holdRoom_uncapped (hw : d.writer? w = some s) (hopen : (d.collector k).closed = false)
    (hroom : (d.collector k).options.isUncapped = true) :
    (d.holdRoom w k).1 = true ∧ Solo w d (d.holdRoom w k).2 := by
  have hrent : (d.letGo w k).rentChunk k =
      (some ((d.letGo w k).enterChunk k).1, ((d.letGo w k).enterChunk k).2) := by
    have hchunks : ((d.letGo w k).collector k).hasChunkRoom = true := by
      refine Collector.hasChunkRoom_of_isUncapped ?_
      rwa [options_letGo]
    rw [rentChunk, if_neg (by simp [closed_letGo, hopen]), if_pos hchunks]
  have hrenew : d.renewChunk w k = (true, (d.letGo w k).hold w k) := by
    rw [renewChunk, hrent]
    rfl
  have hrenewed : Solo w d ((d.letGo w k).hold w k) := (Solo.letGo d w k).trans (.hold _ w k)
  simp only [holdRoom, hw, Option.bind_some, hrenew]
  split
  · split
    · exact ⟨rfl, hrenewed⟩
    · exact ⟨rfl, .refl d⟩
  · exact ⟨rfl, hrenewed⟩

/-- It admits every event. -/
theorem admitEvent_uncapped (hopen : (d.collector k).closed = false)
    (hroom : (d.collector k).options.isUncapped = true) :
    d.admitEvent k = (true, d.modifyCollector k Collector.countEvent) := by
  have hevents := Collector.hasEventRoom_of_isUncapped hroom
  simp [admitEvent, hopen, hevents]

/-- So an event that has come to be placed is written. -/
theorem Owned.place_uncapped (h : Owned d) (hw : d.writer? w = some s)
    (hs : s.collector = some k) (hopen : (d.collector k).closed = false)
    (hroom : (d.collector k).options.isUncapped = true) (e : Emission) (stamp : Int) :
    (d.place w k e stamp).1 = true ∧ Solo w d (d.place w k e stamp).2 ∧
      ∃ chunk, (d.place w k e stamp).2.writer? w =
        some { s with chunk, sequence := s.sequence + 1 } := by
  obtain ⟨hheld, hsolo⟩ := holdRoom_uncapped hw hopen hroom
  rcases hhold : d.holdRoom w k with ⟨ok, d₁⟩
  rw [hhold] at hheld hsolo
  obtain rfl : ok = true := hheld
  obtain ⟨-, c, hw₁, hfull, hopen₁⟩ := h.holdRoom hw hs hopen hhold
  have hroom₁ : (d₁.collector k).options.isUncapped = true := by rwa [hsolo.options k]
  have hplace : d.place w k e stamp = (true, d₁.accept k w c (s.stamped e stamp)) := by
    have hw₂ : (d₁.modifyCollector k Collector.countEvent).writer? w =
        some { s with chunk := some c } := hw₁
    have hfull₂ : ((d₁.modifyCollector k Collector.countEvent).chunk c).isFull = false := hfull
    simp only [place, hhold, admitEvent_uncapped hopen₁ hroom₁, append, hw₂, hfull₂]
    rfl
  rw [hplace]
  refine ⟨rfl, hsolo.trans (.accept d₁ k w c _), some c, ?_⟩
  rw [writer?_accept, hw₁]
  rfl

/-! ## Writes -/

/-- What a write comes to where there is always room. -/
structure Roomy (w : WriterId) (s : Writer) (e : Emission) (now : Reading) (d : Depot)
    (r : Bool × Depot) : Prop where
  passed : r.1 = ((s.screen.screen e.id e.kind now.arrival).1 == .passed)
  solo : Solo w d r.2
  writer : ∃ chunk, r.2.writer? w =
    some { s with
      chunk
      screen := (s.screen.screen e.id e.kind now.arrival).2
      sequence := s.sequence + if r.1 then 1 else 0 }

/-- **Where there is always room, a write is done exactly if it passes the
writer's tests.** -/
theorem Owned.write_uncapped (h : Owned d) (hw : d.writer? w = some s)
    (hs : s.collector = some k) (hlink : d.isLinkClosed s.link = false)
    (hopen : (d.collector k).closed = false)
    (hroom : (d.collector k).options.isUncapped = true) (e : Emission) (now : Reading) :
    Roomy w s e now d (d.write w e now) := by
  have hwriting : d.isWriterClosed s = false := by
    rw [isWriterClosed, hs, hlink, Option.all_some, hopen]
    rfl
  generalize hscreened : s.screen.screen e.id e.kind now.arrival = screened
  obtain ⟨verdict, screen⟩ := screened
  have hsolo : Solo w d (d.rescreen w screen) := .modifyWriter d w _
  have hw₁ : (d.rescreen w screen).writer? w = some { s with screen } := by
    rw [rescreen, writer?_modifyWriter, hw]
    rfl
  -- an event that is counted as lost changes no writer but for its tests
  have hrefused : ∀ {d' : Depot}, d.write w e now = (false, d') → verdict ≠ .passed →
      Refuses k (d.rescreen w screen) d' → d'.links = (d.rescreen w screen).links →
      Roomy w s e now d (d.write w e now) := by
    intro d' hwrite hverdict hrefuses hlinks
    refine ⟨?_, ?_, s.chunk, ?_⟩
    · rw [hwrite, hscreened]
      exact (beq_eq_false_iff_ne.mpr hverdict).symm
    · rw [hwrite]
      exact hsolo.trans (.of_refuses hrefuses hlinks)
    · rw [hwrite, hscreened, writer?, hrefuses.sameWriters, ← writer?, hw₁]
      simp
  cases verdict with
  | filtered =>
    have hwrite : d.write w e now = (false, d.rescreen w screen) := by
      simp only [write, hw, hs, hwriting, hscreened]
      rfl
    refine ⟨?_, ?_, s.chunk, ?_⟩
    · rw [hwrite, hscreened]
      rfl
    · rw [hwrite]
      exact hsolo
    · rw [hwrite, hscreened, hw₁]
      simp
  | sampledOut =>
    refine hrefused ?_ (by simp) (refuses_recordSampledOut _ k) rfl
    simp only [write, hw, hs, hwriting, hscreened]
    rfl
  | rateLimited =>
    refine hrefused ?_ (by simp) (refuses_recordRateLimited _ k) ?_
    · simp only [write, hw, hs, hwriting, hscreened]
      rfl
    · unfold recordRateLimited signal
      dsimp only
      split <;> rfl
  | passed =>
    have hwrite : d.write w e now = (d.rescreen w screen).place w k e now.stamp := by
      simp only [write, hw, hs, hwriting, hscreened]
      rfl
    have howned : Owned (d.rescreen w screen) := h.modifyWriter fun _ => .inl rfl
    obtain ⟨hdone, hplaced, chunk, hw₂⟩ :=
      howned.place_uncapped hw₁ hs hopen hroom e now.stamp
    refine ⟨?_, ?_, chunk, ?_⟩
    · rw [hwrite, hdone, hscreened]
      rfl
    · rw [hwrite]
      exact hsolo.trans hplaced
    · rw [hwrite, hdone, hw₂, hscreened]
      rfl

/-- Where nothing was given up meanwhile, what is held is what was kept. -/
theorem heldOf_of_kept {l : List Event} (hevictions : d'.evictions k = d.evictions k)
    (hkept : ofThread t (d'.kept k) = ofThread t (d.kept k) ++ l) :
    d'.heldOf k t = d.heldOf k t ++ l := by
  rw [kept, kept, hevictions, ofThread_append, ofThread_append, List.append_assoc] at hkept
  exact List.append_cancel_left hkept

/-- Moves that give nothing up lose nothing that is held. -/
theorem Filed.heldOf_moves (h : Filed E F d) (hm : Moves d d') (hsolo : Solo w d d')
    (hk : k ∉ F) (t : Int) : d'.heldOf k t = d.heldOf k t := by
  have hkept := (h.intact_moves hm).kept k hk t
  rw [← List.append_nil (ofThread t (d.kept k))] at hkept
  rw [heldOf_of_kept (hsolo.evictions k) hkept, List.append_nil]

/-- **What a write adds where there is always room**: if it passes the tests,
its event, behind those of its thread and in its session only. -/
theorem Filed.heldOf_write {e : Emission} {now : Reading} (h : Filed E F d) (hE : E.Nodup)
    (hw : d.writer? w = some s) (hs : s.collector = some k)
    (hroomy : Roomy w s e now d (d.write w e now)) :
    Filed E F (d.write w e now).2 ∧ ∀ j ∉ F, ∀ t, (d.write w e now).2.heldOf j t =
      d.heldOf j t ++ if (d.write w e now).1 = true ∧ j = k ∧ t = s.thread
        then [s.stamped e now.stamp] else [] := by
  have hends := h.posted.owned.writeEnds w e now
  cases hdone : (d.write w e now).1 with
  | false =>
    obtain ⟨hfiled, hintact⟩ := h.writeEnds_false hends hdone
    refine ⟨hfiled, fun j hj t => ?_⟩
    have hkept := hintact.kept j hj t
    rw [← List.append_nil (ofThread t (d.kept j))] at hkept
    rw [heldOf_of_kept (hroomy.solo.evictions j) hkept]
    simp
  | true =>
    obtain ⟨i, r, hw', hr, hfiled, hgained⟩ := h.writeEnds_true hE hends hdone
    obtain rfl : s = r := Option.some.inj (hw.symm.trans hw')
    obtain rfl : k = i := Option.some.inj (hs.symm.trans hr)
    refine ⟨hfiled, fun j hj t => ?_⟩
    rw [heldOf_of_kept (hroomy.solo.evictions j) (hgained.kept j hj t)]
    simp

end Depot

end EventTrace
