import EventTrace.Proofs.Profile.Pairs
import EventTrace.Proofs.Profile.Strictness
/-!
# Profile — cutting a stream only leaves begins and ends unmatched

What is left of a thread's events when chunks were given up before them and a
cap came after them is a piece of nested events. Its frames are the scopes that
the piece itself leaves open, so an end of something cut off before meets no
frame, and no end meets a frame of another scope
(`ThreadState.step_of_read`). So the damage is what the cuts took, and every
pair of the piece closes its scope as if nothing had been cut, unless it lasts
longer than a word can tell (`truncation_only_unmatches`).
-/

namespace EventTrace

/-! ## One thread -/

namespace Nests

variable {events : List Event} {xs : List Scope} {first last : Int}

/-- Nested events in order tell of scopes that last. -/
theorem lasting (h : Nests events xs)
    (hordered : events.Pairwise fun a b => a.timestamp ≤ b.timestamp) : Scope.Lasting xs := by
  induction h with
  | nil => exact Scope.lasting_nil
  | other _ _ ih => exact ih hordered.of_cons
  | @scope b e inside rest children xs _ _ _ _ _ ihinside ihrest =>
    obtain ⟨hfirst, hordered⟩ := List.pairwise_cons.mp hordered
    obtain ⟨hinside, hlast, -⟩ := List.pairwise_append.mp hordered
    exact Scope.lasting_cons.mpr
      ⟨hfirst e (by simp), ihinside hinside, ihrest hlast.of_cons⟩

/-- Their scopes take no longer together than from one time before them to
another after them. -/
theorem durations_le (h : Nests events xs)
    (hordered : events.Pairwise fun a b => a.timestamp ≤ b.timestamp) (hle : first ≤ last)
    (hbetween : ∀ a ∈ events, first ≤ a.timestamp ∧ a.timestamp ≤ last) :
    Scope.durations xs ≤ last - first := by
  induction h generalizing first with
  | nil => exact sub_nonneg.mpr hle
  | other _ _ ih => exact ih hordered.of_cons hle fun a ha => hbetween a (List.mem_cons_of_mem _ ha)
  | @scope b e inside rest children xs _ _ _ _ _ _ ihrest =>
    have hb := hbetween b (by simp)
    have he := hbetween e (by simp)
    obtain ⟨hafter, hrest⟩ :=
      List.pairwise_cons.mp (List.pairwise_append.mp hordered.of_cons).2.1
    have hlater := ihrest hrest he.2 fun a ha => ⟨hafter a ha, (hbetween a (by simp [ha])).2⟩
    rw [Scope.durations_cons]
    show e.timestamp - b.timestamp + Scope.durations xs ≤ last - first
    omega

/-- If a word holds how far the two times are apart, words hold what the scopes
take. -/
theorem brief (h : Nests events xs)
    (hordered : events.Pairwise fun a b => a.timestamp ≤ b.timestamp)
    (hbetween : ∀ a ∈ events, first ≤ a.timestamp ∧ a.timestamp ≤ last)
    (hspan : last - first ≤ TickRate.maxTicks) : Scope.Brief xs := by
  induction h with
  | nil => exact Scope.brief_nil
  | other _ _ ih => exact ih hordered.of_cons fun a ha => hbetween a (List.mem_cons_of_mem _ ha)
  | @scope b e inside rest children xs _ _ _ hinside _ ihinside ihrest =>
    have hb := hbetween b (by simp)
    have he := hbetween e (by simp)
    obtain ⟨hafter, hbelow⟩ := List.pairwise_cons.mp hordered
    obtain ⟨hchildren, hrest, hbefore⟩ := List.pairwise_append.mp hbelow
    have hduration : e.timestamp - b.timestamp ≤ TickRate.maxTicks := by omega
    -- what is inside the scope took place between its begin and its end
    have hheld := hinside.durations_le hchildren (hafter e (by simp)) fun a ha =>
      ⟨hafter a (by simp [ha]), hbefore a ha e List.mem_cons_self⟩
    exact Scope.brief_cons.mpr ⟨⟨hduration, hheld.trans hduration⟩,
      ihinside hchildren fun a ha => hbetween a (by simp [ha]),
      ihrest hrest.of_cons fun a ha => hbetween a (by simp [ha])⟩

end Nests

/-- A scope as it is closed on a thread. -/
def Scope.closedOn (t : Int) (x : Scope) : ClosedScope := ⟨x.id, t, x.duration, x.exclusive⟩

namespace ThreadState

variable {strict : Bool} {s : ThreadState} {events : List Event} {e : Event} {l l' : Loose}

/-- An end with no open frame finds nothing to close. -/
theorem step_loose_end (hkind : e.kind = .scopeEnd) (hframes : s.frames = []) :
    s.step strict e = (s, { anomalies := { unmatchedEnd := 1 } }) := by
  simp [step, hkind, close, hframes, Nesting.close]

/-- **A piece is replayed as it reads**: its frames are the scopes it leaves
open, and the only damage is an end of what was open before it. -/
theorem step_of_read (strict : Bool) (hids : s.ids = l.opened) (hread : l.read e = some l') :
    (s.step strict e).1.ids = l'.opened ∧
      (s.step strict e).2.anomalies.unmatchedBegin = 0 ∧
      (s.step strict e).2.anomalies.mismatchedEnd = 0 ∧
      l.ends + (s.step strict e).2.anomalies.unmatchedEnd = l'.ends := by
  have hnested : nest s.ids e = some l'.opened → l'.ends = l.ends →
      (s.step strict e).1.ids = l'.opened ∧
        (s.step strict e).2.anomalies.unmatchedBegin = 0 ∧
        (s.step strict e).2.anomalies.mismatchedEnd = 0 ∧
        l.ends + (s.step strict e).2.anomalies.unmatchedEnd = l'.ends := by
    intro hnest hends
    obtain ⟨hopened, hclean⟩ : (s.step strict e).1.ids = l'.opened ∧
        (s.step strict e).2.anomalies.Nested := step_of_nest hnest
    exact ⟨hopened, hclean.unmatchedBegin, hclean.mismatchedEnd, by
      rw [hclean.unmatchedEnd, hends, Nat.add_zero]⟩
  rcases Loose.read_eq_some.mp hread with ⟨hkind, rfl⟩ | ⟨hkind, hopened, rfl⟩ |
    ⟨hkind, below, hopened, rfl⟩ | ⟨hkind, rfl⟩
  · exact hnested (by rw [hids, nest_begin hkind]) rfl
  · have hframes : s.frames = [] := by
      rw [hopened] at hids
      exact List.map_eq_nil_iff.mp hids
    rw [step_loose_end hkind hframes]
    exact ⟨hids.trans hopened, rfl, rfl, rfl⟩
  · exact hnested (by rw [hids, hopened, nest_end hkind]) rfl
  · exact hnested (by rw [hids, nest_of_not_isScope hkind]) rfl

/-- The frames of a piece are the scopes it leaves open. -/
theorem ids_run_of_loose (strict : Bool) (hl : loose? events = some l) :
    (run strict events).ids = l.opened := by
  induction events using List.reverseRecOn generalizing l with
  | nil =>
    obtain rfl : ⟨0, []⟩ = l := Option.some.inj hl
    rfl
  | append_singleton events e ih =>
    obtain ⟨before, hbefore, hread⟩ := loose?_concat_eq_some.mp hl
    rw [run_append]
    exact (step_of_read strict (ih hbefore) hread).1

/-- An end of the innermost open scope finishes it. -/
theorem step_top (hkind : e.kind = .scopeEnd) {top : Frame Pending} {below : List (Frame Pending)}
    (hframes : s.frames = top :: below) (hid : top.id = e.id) :
    s.step strict e = s.finish e ⟨top, [], below⟩ := by
  have hmatch : Nesting.close strict e.id s.frames = ⟨some ⟨top, [], below⟩, {}, none⟩ := by
    rw [hframes, Nesting.close, if_pos hid]
  have hclose : s.step strict e = s.close strict e := by simp only [step, hkind]
  rw [hclose, close, hmatch]
  simp only [finish, List.foldl_nil]
  split <;> rfl

/-- Nested events leave open what was open before, however long their scopes
last. -/
theorem bareFrames_nests {xs : List Scope} (h : Nests events xs) (strict : Bool)
    (s : ThreadState) :
    (events.foldl (fun s e => (s.step strict e).1) s).bareFrames = s.bareFrames := by
  induction h generalizing s with
  | nil => rfl
  | other he _ ih =>
    rw [List.foldl_cons, step_of_not_isScope he]
    exact ih s
  | @scope b e inside rest children xs hb he hid _ _ ihinside ihrest =>
    have hopen : (s.step strict b).1 =
        { s with frames := ⟨b.id, b.timestamp, {}⟩ :: s.frames } := by
      simp [step, hb]
    rw [List.foldl_cons, List.foldl_append, List.foldl_cons, ihrest, hopen]
    have hinside := ihinside { s with frames := ⟨b.id, b.timestamp, {}⟩ :: s.frames }
    generalize inside.foldl _ _ = s' at hinside ⊢
    obtain ⟨top, below, hframes, htop, hbelow⟩ := List.map_eq_cons_iff.mp hinside
    have hidTop : top.id = e.id := (congrArg Frame.id htop).trans hid.symm
    rw [step_top he hframes hidTop, bareFrames_finish]
    exact hbelow

/-- **An end of a pair closes the scope of the pair**, whatever the thread did
before its begin; if no word holds how long the scope lasted, its duration is
invalid instead. -/
theorem outcome_run_pair (strict : Bool) (before : List Event) {inside : List Event} {b : Event}
    {xs : List Scope} (hb : b.kind = .scopeBegin) (he : e.kind = .scopeEnd) (hid : e.id = b.id)
    (hinside : Nests inside xs)
    (hordered : (b :: (inside ++ [e])).Pairwise fun a b => a.timestamp ≤ b.timestamp)
    (hwords : Ticks.Fit b.timestamp ∧ Ticks.Fit e.timestamp) :
    ((run strict (before ++ b :: inside)).step strict e).2 =
      if e.timestamp - b.timestamp ≤ TickRate.maxTicks then
        { closed := some (Scope.closedOn e.thread ⟨b.id, b.timestamp, e.timestamp, xs⟩) }
      else { anomalies := { invalidDurations := 1 } } := by
  generalize hs : run strict before = s
  have hopen : s.step strict b =
      ({ s with frames := ⟨b.id, b.timestamp, {}⟩ :: s.frames }, {}) := by
    simp [step, hb]
  have hrun : run strict (before ++ b :: inside) = inside.foldl
      (fun s e => (s.step strict e).1)
        { s with frames := ⟨b.id, b.timestamp, {}⟩ :: s.frames } := by
    rw [run, List.foldl_append, List.foldl_cons]
    show inside.foldl _ ((run strict before).step strict b).1 = _
    rw [hs, hopen]
  obtain ⟨hafter, hbelow⟩ := List.pairwise_cons.mp hordered
  obtain ⟨hchildren, -, hbefore⟩ := List.pairwise_append.mp hbelow
  have hle : b.timestamp ≤ e.timestamp := hafter e (by simp)
  have hbetween : ∀ a ∈ inside, b.timestamp ≤ a.timestamp ∧ a.timestamp ≤ e.timestamp :=
    fun a ha => ⟨hafter a (by simp [ha]), hbefore a ha e List.mem_cons_self⟩
  rw [hrun]
  split
  · next hduration =>
    have hlasting := hinside.lasting hchildren
    have hbrief := hinside.brief hchildren hbetween hduration
    have hheld := hinside.durations_le hchildren hle hbetween
    rw [(hinside.runs hlasting hbrief strict _).foldl_eq, step_end strict he hid
      (Scope.lasting_cons.mpr ⟨hle, hlasting, Scope.lasting_nil⟩)
      (Scope.brief_cons.mpr ⟨⟨hduration, hheld.trans hduration⟩, hbrief, Scope.brief_nil⟩)]
    rfl
  · next hduration =>
    have hframes := bareFrames_nests hinside strict
      { s with frames := ⟨b.id, b.timestamp, {}⟩ :: s.frames }
    generalize inside.foldl _ _ = s' at hframes ⊢
    obtain ⟨top, below, hframes, htop, -⟩ := List.map_eq_cons_iff.mp hframes
    have hidTop : top.id = e.id := (congrArg Frame.id htop).trans hid.symm
    have hstart : top.start = b.timestamp := congrArg Frame.start htop
    -- the difference of two words that is too long for one wraps to less than zero
    have hnegative : Ticks.wrap (e.timestamp - b.timestamp) < 0 := by
      simp only [Ticks.wrap, Ticks.Fit, TickRate.minTicks, TickRate.maxTicks] at *
      omega
    rw [step_top he hframes hidTop]
    simp only [finish, hstart, if_pos hnegative]

/-- What is no end of a pair closes nothing, and measures nothing. -/
theorem outcome_of_read (hids : s.ids = l.opened) (hread : l.read e = some l')
    (hnone : ¬ (e.kind = .scopeEnd ∧ l.opened ≠ [])) : (s.step strict e).2.closed = none ∧
      (s.step strict e).2.anomalies.invalidDurations = 0 := by
  rcases Loose.read_eq_some.mp hread with ⟨hkind, -⟩ | ⟨hkind, hopened, -⟩ |
    ⟨hkind, below, hopened, -⟩ | ⟨hkind, -⟩
  · simp [step, hkind]
  · rw [hopened] at hids
    rw [step_loose_end hkind (List.map_eq_nil_iff.mp hids)]
    exact ⟨rfl, rfl⟩
  · exact absurd ⟨hkind, by simp [hopened]⟩ hnone
  · rw [step_of_not_isScope hkind]
    exact ⟨rfl, rfl⟩

end ThreadState

/-! ## The findings of a thread -/

namespace Replay

variable {strict : Bool} {events : List Event} {e : Event} {t : Int} {l : Loose}

/-- An event after some pairs changes neither what scopes they tell of nor which
of them a word can measure. -/
theorem told_concat {pairs : List (Nat × Nat)} (hpairs : PairsOf events pairs)
    {scopes : List ClosedScope}
    (h : List.Forall₂ (fun p scope => ∃ x, PairedAs events p.1 p.2 x ∧ scope = x.closedOn t)
      (pairs.filter (isBrief events)) scopes) :
    List.Forall₂ (fun p scope => ∃ x, PairedAs (events ++ [e]) p.1 p.2 x ∧ scope = x.closedOn t)
        (pairs.filter (isBrief (events ++ [e]))) scopes ∧
      (pairs.filter fun p => !isBrief (events ++ [e]) p) =
        pairs.filter fun p => !isBrief events p := by
  have hkept : ∀ p ∈ pairs, isBrief (events ++ [e]) p = isBrief events p := fun p hp =>
    hpairs.isBrief_concat hp
  refine ⟨?_, List.filter_congr fun p hp => by rw [hkept p hp]⟩
  rw [List.filter_congr hkept]
  refine h.imp fun p scope ⟨x, hx, hscope⟩ => ⟨x, ?_, hscope⟩
  exact (pairedAs_concat_of_lt hx.lt_length).mpr hx

/-- Of a piece, every pair that a word can measure closes its scope, one after
the other in the order of their ends, and every other pair has an invalid
duration. -/
theorem findings_of_loose (strict : Bool) (hthread : ∀ a ∈ events, a.thread = t)
    (hordered : events.Pairwise fun a b => a.timestamp ≤ b.timestamp)
    (hwords : ∀ a ∈ events, Ticks.Fit a.timestamp) (hl : loose? events = some l) :
    ∃ pairs, PairsOf events pairs ∧
      List.Forall₂ (fun p scope => ∃ x, PairedAs events p.1 p.2 x ∧ scope = x.closedOn t)
        (pairs.filter (isBrief events)) (closedScopes strict events) ∧
      ((findings strict events).map (·.2.anomalies)).sum =
        { unmatchedEnd := l.ends
          invalidDurations := (pairs.filter fun p => !isBrief events p).length } := by
  induction events using List.reverseRecOn generalizing l with
  | nil =>
    obtain rfl : ⟨0, []⟩ = l := Option.some.inj hl
    exact ⟨[], .nil, .nil, rfl⟩
  | append_singleton events e ih =>
    obtain ⟨before, hbefore, hread⟩ := loose?_concat_eq_some.mp hl
    obtain ⟨pairs, hpairs, hclosed, hdamage⟩ := ih (fun a ha => hthread a (by simp [ha]))
      (List.pairwise_append.mp hordered).1 (fun a ha => hwords a (by simp [ha])) hbefore
    obtain ⟨hclosed, hlong⟩ := told_concat (e := e) hpairs hclosed
    have hids := ThreadState.ids_run_of_loose strict hbefore
    obtain ⟨-, hbegin, hmismatch, hend⟩ := ThreadState.step_of_read strict hids hread
    rw [closedScopes_concat, findings_concat, List.map_append, List.sum_append, hdamage,
      List.map_singleton, List.sum_singleton, outcome_alone strict hthread]
    by_cases hpair : e.kind = .scopeEnd ∧ before.opened ≠ []
    · -- the end meets the scope that the piece opened last
      obtain ⟨front, b, inside, xs, rfl, hb, hid, hinside, hx⟩ :=
        exists_pairedAs_last hbefore hread hpair.1 hpair.2
      rw [List.append_assoc, List.cons_append] at hordered
      have houtcome := ThreadState.outcome_run_pair strict front hb hpair.1 hid hinside
        (List.pairwise_append.mp hordered).2.1 ⟨hwords b (by simp), hwords e (by simp)⟩
      have hbrief : isBrief (front ++ b :: inside ++ [e])
          (front.length, (front ++ b :: inside).length) =
            decide (e.timestamp - b.timestamp ≤ TickRate.maxTicks) := by
        rw [isBrief, hx.ticksBetween_eq]
        rfl
      refine ⟨_, hpairs.concat ⟨_, hx⟩, ?_⟩
      rw [houtcome] at hend ⊢
      rw [List.filter_append, List.filter_append, List.filter_singleton, List.filter_singleton,
        hbrief, hlong, hthread e (by simp)]
      by_cases hduration : e.timestamp - b.timestamp ≤ TickRate.maxTicks
      · rw [if_pos hduration] at hend ⊢
        rw [decide_eq_true hduration, ← hend]
        refine ⟨List.rel_append hclosed (.cons ⟨_, hx, rfl⟩ .nil), ?_⟩
        rw [List.length_append]
        rfl
      · rw [if_neg hduration] at hend ⊢
        rw [decide_eq_false hduration, ← hend]
        refine ⟨List.rel_append hclosed .nil, ?_⟩
        rw [List.length_append]
        rfl
    · obtain ⟨hnone, hvalid⟩ := ThreadState.outcome_of_read hids hread hpair
      refine ⟨pairs, hpairs.same (mt (exists_paired_last_iff hbefore hread).mp hpair), ?_, ?_⟩
      · rw [hnone, Option.toList_none, List.append_nil]
        exact hclosed
      · rw [hlong]
        generalize ((ThreadState.run strict events).step strict e).2.anomalies = a at *
        obtain ⟨_, _, _, _⟩ := a
        simp only at hbegin hmismatch hend hvalid
        subst hbegin hmismatch hvalid
        rw [← hend]
        rfl

/-- **The damage of a piece is what reaches beyond it**, and the pairs that no
word can measure. -/
theorem damage_of_loose (strict : Bool) (hthread : ∀ a ∈ events, a.thread = t)
    (hordered : events.Pairwise fun a b => a.timestamp ≤ b.timestamp)
    (hwords : ∀ a ∈ events, Ticks.Fit a.timestamp) (hl : loose? events = some l) :
    damage strict events =
      { unmatchedBegin := l.opened.length
        unmatchedEnd := l.ends
        invalidDurations := (overlongPairs events).ncard } := by
  obtain ⟨pairs, hpairs, -, hway⟩ := findings_of_loose strict hthread hordered hwords hl
  have hopened : (ThreadState.run strict events).frames.length = l.opened.length := by
    rw [← ThreadState.ids_run_of_loose strict hl, ThreadState.ids, List.length_map]
  rw [damage, hway, Nesting.leftOpen, hopened, ncard_overlongPairs hpairs]
  exact congrArg (Anomalies.mk · l.ends 0 _) (Nat.zero_add _)

end Replay

/-! ## The profile -/

namespace Recording

/-- The events of a thread that a profile replays. -/
def streamOf (r : Recording) (o : ProfileOptions) (t : Int) : List Event :=
  (r.profiledEvents o).filter (·.thread == t)

/-- The events of each thread are what was left in order of nested ones, after
some were cut off before them and some after them. Their timestamps are words. -/
structure CutFrom (r : Recording) (o : ProfileOptions) (u w : Int → List Event) : Prop where
  nested : ∀ t, (openScopes? (u t ++ r.streamOf o t ++ w t)).isSome = true
  ordered : ∀ t, (r.streamOf o t).Pairwise fun a b => a.timestamp ≤ b.timestamp
  words : ∀ t, ∀ e ∈ r.streamOf o t, Ticks.Fit e.timestamp

variable {r : Recording} {o : ProfileOptions} {t : Int} {u w : Int → List Event}

theorem thread_of_mem_streamOf {e : Event} (he : e ∈ r.streamOf o t) : e.thread = t :=
  beq_iff_eq.mp (List.mem_filter.mp he).2

/-- What a thread is left with reads as a piece of nested events. -/
theorem CutFrom.exists_loose? (h : r.CutFrom o u w) (t : Int) :
    ∃ l, loose? (r.streamOf o t) = some l :=
  exists_loose?_of_nested (h.nested t)

/-- **The damage of a thread is what the cuts took**, and the pairs that no word
can measure. -/
theorem CutFrom.damage (h : r.CutFrom o u w) (t : Int) :
    Replay.damage o.strict (r.streamOf o t) =
      { unmatchedBegin := (openBegins (u t) (r.streamOf o t) (w t)).ncard
        unmatchedEnd := (orphanEnds (u t) (r.streamOf o t) (w t)).ncard
        invalidDurations := (overlongPairs (r.streamOf o t)).ncard } := by
  obtain ⟨l, hl⟩ := h.exists_loose? t
  have hthread : ∀ e ∈ r.streamOf o t, e.thread = t := fun _ => thread_of_mem_streamOf
  rw [Replay.damage_of_loose o.strict hthread (h.ordered t) (h.words t) hl,
    ncard_orphanEnds (h.nested t) hl, ncard_openBegins hl]

end Recording

end EventTrace
