import EventTrace.Proofs.Screen
import EventTrace.Proofs.Table
/-!
# Sampling — the first of so many, and scopes kept whole

What a sampler remembers is told by the events that were screened before:
its counts are how many of them drew, each id with a rate of its own by
itself and all others together, and its decisions are those about the begins
that are still open (`Sampler.Tracks`). One event keeps that, and is treated
as the history says (`Screen.Tracks.screen`): of the draws at a rate the first
of every so many is kept, and an end shares the fate of the begin it closes.
The history names filtered events too, but a sampler never hears of them.
-/

namespace EventTrace

/-! ## The history of a writer -/

/-- Whether an event of the kind draws. -/
def Kind.draws : Kind → Bool
  | scopeBegin | instant | counter => true
  | _ => false

/-- Whether an event got past filter and sampling. -/
def Verdict.keeps : Verdict → Bool
  | filtered | sampledOut => false
  | passed | rateLimited => true

/-- An event that was screened, and what came of it. -/
structure Screening where
  id : Int
  kind : Kind
  verdict : Verdict
  /-- What the write returned. -/
  written : Bool
deriving DecidableEq, Repr

/-- Whether the event got past filter and sampling. -/
def Screening.kept (x : Screening) : Bool := x.verdict.keeps

namespace Options

/-- The rate at which an id draws: its own, or the common one. -/
def rateOf (o : Options) (id : Int) : Nat := (o.sampleEveryById.get? id).getD o.sampleEvery

/-- Whether two ids draw on one count: one with a rate of its own only with
itself, any other with all others. -/
def sameCount (o : Options) (a b : Int) : Bool :=
  if (o.sampleEveryById.get? a).isSome then a == b else (o.sampleEveryById.get? b).isNone

/-- Whether the category lists let an event pass. -/
def records (o : Options) (x : Screening) : Bool := o.allows x.id

/-- Whether an event draws on the count of an id. -/
def drawsOn (o : Options) (id : Int) (x : Screening) : Bool :=
  o.records x && x.kind.draws && o.sameCount id x.id

/-- The draws on the count of an id. -/
def drawn (o : Options) (log : List Screening) (id : Int) : Nat := log.countP (o.drawsOn id)

end Options

/-- The open begins after an event, the innermost first; none if it ends
another scope than the innermost. Where nothing is open an end closes
nothing. -/
def Screening.nest (opened : List Screening) (x : Screening) : Option (List Screening) :=
  match x.kind, opened with
  | .scopeBegin, opened => some (x :: opened)
  | .scopeEnd, [] => some []
  | .scopeEnd, b :: rest => if b.id = x.id then some rest else none
  | _, opened => some opened

/-- The begins that events leave open, the innermost first, if each end is of
the innermost one or of none. -/
def openBegins? (log : List Screening) : Option (List Screening) :=
  log.foldlM Screening.nest []

/-- What becomes of an event after others. -/
structure Screening.Fair (o : Options) (before : List Screening) (x : Screening) : Prop where
  /-- An event of an id that is not recorded is filtered, and no other is. -/
  filtered : x.verdict = .filtered ↔ o.records x = false
  /-- **Of the draws at a rate, the first of every so many is kept.** -/
  drawn : o.records x = true → x.kind.draws = true →
    (x.kept = true ↔ o.rateOf x.id ≤ 1 ∨
      (o.drawn before x.id + 1) % o.rateOf x.id = 1 % o.rateOf x.id)
  /-- Links of flows are kept. -/
  flow : o.records x = true → x.kind.isFlow = true → x.kept = true
  /-- **An end shares the fate of the begin it closes.** -/
  closing : x.kind = .scopeEnd → ∀ b rest, openBegins? before = some (b :: rest) →
    b.id = x.id → x.kept = b.kept
  /-- An end that closes nothing is kept. -/
  loose : o.records x = true → x.kind = .scopeEnd → openBegins? before = some [] →
    x.kept = true

/-! ## Open begins -/

section OpenBegins

variable {log opened rest : List Screening} {x b : Screening}

theorem openBegins?_concat (log : List Screening) (x : Screening) :
    openBegins? (log ++ [x]) = (openBegins? log).bind (Screening.nest · x) := by
  rw [openBegins?, List.foldlM_append]
  simp [openBegins?]

namespace Screening

theorem nest_begin (hx : x.kind = .scopeBegin) (opened : List Screening) :
    nest opened x = some (x :: opened) := by
  simp [nest, hx]

theorem nest_end (hx : x.kind = .scopeEnd) (hb : b.id = x.id) (rest : List Screening) :
    nest (b :: rest) x = some rest := by
  simp [nest, hx, hb]

theorem nest_loose (hx : x.kind = .scopeEnd) : nest [] x = some [] := by
  simp [nest, hx]

theorem nest_of_not_isScope (hx : x.kind.isScope = false) (opened : List Screening) :
    nest opened x = some opened := by
  unfold nest
  split
  · next hkind => simp [hkind, Kind.isScope] at hx
  · next hkind => simp [hkind, Kind.isScope] at hx
  · next hkind => simp [hkind, Kind.isScope] at hx
  · rfl

/-- What an event can do to the open begins. -/
theorem nest_cases {opened : List Screening} (h : nest opened x = some rest) :
    (x.kind = .scopeBegin ∧ rest = x :: opened) ∨
    (x.kind = .scopeEnd ∧ opened = [] ∧ rest = []) ∨
    (∃ b, x.kind = .scopeEnd ∧ opened = b :: rest ∧ b.id = x.id) ∨
    (x.kind.isScope = false ∧ rest = opened) := by
  cases hx : x.kind with
  | scopeBegin =>
    rw [nest_begin hx, Option.some.injEq] at h
    exact .inl ⟨rfl, h.symm⟩
  | scopeEnd =>
    cases opened with
    | nil =>
      rw [nest_loose hx, Option.some.injEq] at h
      exact .inr (.inl ⟨rfl, rfl, h.symm⟩)
    | cons b below =>
      simp only [nest, hx, Option.ite_none_right_eq_some, Option.some.injEq] at h
      obtain ⟨hb, rfl⟩ := h
      exact .inr (.inr (.inl ⟨b, rfl, rfl, hb⟩))
  | _ =>
    rw [nest_of_not_isScope (by rw [hx]; rfl), Option.some.injEq] at h
    exact .inr (.inr (.inr ⟨rfl, h.symm⟩))

end Screening

/-- What is open was begun. -/
theorem mem_of_openBegins? (h : openBegins? log = some opened) (hb : b ∈ opened) : b ∈ log := by
  induction log using List.reverseRecOn generalizing opened with
  | nil =>
    obtain rfl : [] = opened := Option.some.inj h
    exact absurd hb List.not_mem_nil
  | append_singleton log x ih =>
    rw [openBegins?_concat, Option.bind_eq_some_iff] at h
    obtain ⟨before, hbefore, hnest⟩ := h
    rcases Screening.nest_cases hnest with
      ⟨-, rfl⟩ | ⟨-, -, rfl⟩ | ⟨c, -, rfl, -⟩ | ⟨-, rfl⟩
    · rcases List.mem_cons.mp hb with rfl | hb
      · exact List.mem_append_right _ List.mem_cons_self
      · exact List.mem_append_left _ (ih hbefore hb)
    · exact absurd hb List.not_mem_nil
    · exact List.mem_append_left _ (ih hbefore (List.mem_cons_of_mem _ hb))
    · exact List.mem_append_left _ (ih hbefore hb)

/-- **Leaving out whole scopes leaves the nesting**: if each end goes with the
begin it closes, what is left nests, and leaves open what was left open of
it. -/
theorem openBegins?_filter (p : Screening → Bool)
    (hp : ∀ before x after b rest, log = before ++ x :: after → x.kind = .scopeEnd →
      openBegins? before = some (b :: rest) → b.id = x.id → p x = p b)
    (h : openBegins? log = some opened) :
    openBegins? (log.filter p) = some (opened.filter p) := by
  induction log using List.reverseRecOn generalizing opened with
  | nil =>
    obtain rfl : [] = opened := Option.some.inj h
    rfl
  | append_singleton log x ih =>
    rw [openBegins?_concat, Option.bind_eq_some_iff] at h
    obtain ⟨before, hbefore, hnest⟩ := h
    have hfiltered : openBegins? (log.filter p) = some (before.filter p) := by
      refine ih ?_ hbefore
      intro pre y post b rest heq
      exact hp pre y (post ++ [x]) b rest (by simp [heq])
    rw [List.filter_append, List.filter_singleton]
    cases hx : p x with
    | false =>
      rw [cond_false, List.append_nil, hfiltered]
      rcases Screening.nest_cases hnest with
        ⟨-, rfl⟩ | ⟨-, rfl, rfl⟩ | ⟨b, hkind, rfl, hb⟩ | ⟨-, rfl⟩
      · rw [List.filter_cons_of_neg (by simp [hx])]
      · rfl
      · have hpb : p b = false := by rw [← hp log x [] b opened rfl hkind hbefore hb, hx]
        rw [List.filter_cons_of_neg (by simp [hpb])]
      · rfl
    | true =>
      rw [cond_true, openBegins?_concat, hfiltered, Option.bind_some]
      rcases Screening.nest_cases hnest with
        ⟨hkind, rfl⟩ | ⟨hkind, rfl, rfl⟩ | ⟨b, hkind, rfl, hb⟩ | ⟨hkind, rfl⟩
      · rw [Screening.nest_begin hkind, List.filter_cons_of_pos hx]
      · exact Screening.nest_loose hkind
      · have hpb : p b = true := by rw [← hp log x [] b opened rfl hkind hbefore hb, hx]
        rw [List.filter_cons_of_pos hpb, Screening.nest_end hkind hb]
      · exact Screening.nest_of_not_isScope hkind _

end OpenBegins

/-! ## Draws -/

namespace Options

variable {o : Options} {a b : Int} {log : List Screening} {x : Screening}

theorem drawn_concat (o : Options) (log : List Screening) (x : Screening) (id : Int) :
    o.drawn (log ++ [x]) id = o.drawn log id + if o.drawsOn id x = true then 1 else 0 := by
  rw [drawn, drawn, List.countP_append, List.countP_singleton]

/-- Without sampling no id has a rate that leaves anything out. -/
theorem rateOf_le_one (h : o.hasSampling = false) (id : Int) : o.rateOf id ≤ 1 := by
  simp only [hasSampling, Bool.or_eq_false_iff, decide_eq_false_iff_not, List.any_eq_false,
    decide_eq_true_eq, Nat.not_lt] at h
  unfold rateOf
  cases hrate : o.sampleEveryById.get? id with
  | none => exact h.1
  | some rate => exact h.2 rate (List.mem_map.mpr ⟨(id, rate), Table.mem_of_get? hrate, rfl⟩)

end Options

namespace Sampler

variable {s : Sampler} {o : Options} {log : List Screening} {x : Screening}

/-- The draws of an id so far, or of all that have no rate of their own. -/
def countOf (s : Sampler) (id : Int) : Nat :=
  if (s.everyById.get? id).isSome then (s.drawnById.get? id).getD 0 else s.drawn

/-- The sampler draws at the rates of some options. -/
structure Rated (s : Sampler) (o : Options) : Prop where
  every : s.every = o.sampleEvery
  everyById : s.everyById = o.sampleEveryById

theorem Rated.of_sameRates {s' : Sampler} (h : s.Rated o) (hsame : SameRates s s') :
    s'.Rated o :=
  ⟨hsame.1.trans h.every, hsame.2.trans h.everyById⟩

theorem Rated.isEnabled (h : s.Rated o) : s.isEnabled = o.hasSampling := by
  rw [Sampler.isEnabled, h.every, h.everyById, Options.hasSampling]

/-- **A draw is kept if it is the first of so many**, or the rate leaves
nothing out. -/
theorem Rated.draw_fst (h : s.Rated o) (id : Int) :
    (s.draw id).1 = true ↔ o.rateOf id ≤ 1 ∨
      (s.countOf id + 1) % o.rateOf id = 1 % o.rateOf id := by
  have hone : ∀ {rate : Nat}, ¬ rate ≤ 1 → 1 % rate = 1 := fun hrate =>
    Nat.mod_eq_of_lt (Nat.lt_of_not_le hrate)
  unfold draw Options.rateOf countOf
  rw [h.everyById, h.every]
  cases o.sampleEveryById.get? id with
  | some rate =>
    by_cases hrate : rate ≤ 1
    · simp [hrate]
    · simp [hrate, hone hrate]
  | none =>
    by_cases hrate : o.sampleEvery ≤ 1
    · simp [hrate]
    · simp [hrate, hone hrate]

/-- **A draw is counted where it belongs**, unless the rate leaves nothing
out. -/
theorem Rated.countOf_draw (h : s.Rated o) {id j : Int} (hrate : 1 < o.rateOf j) :
    (s.draw id).2.countOf j = s.countOf j + if o.sameCount j id = true then 1 else 0 := by
  have hafter := h.of_sameRates (s.draw_spec id).1
  unfold countOf Options.sameCount
  rw [hafter.everyById, h.everyById]
  unfold Options.rateOf at hrate
  unfold draw
  rw [h.everyById, h.every]
  cases hj : o.sampleEveryById.get? j with
  | some rate =>
    rw [hj, Option.getD_some] at hrate
    simp only [Option.isSome_some, if_true, beq_iff_eq]
    by_cases hid : j = id
    · subst hid
      simp only [hj, if_neg (Nat.not_le.mpr hrate), Table.get?_insert_self, Option.getD_some,
        if_true]
    · rw [if_neg hid]
      -- the count of another id is another row
      cases o.sampleEveryById.get? id with
      | some rate' =>
        dsimp only
        split
        · rfl
        · rw [Table.get?_insert_of_ne hid]
          omega
      | none =>
        dsimp only
        split <;> rfl
  | none =>
    rw [hj, Option.getD_none] at hrate
    simp only [Option.isSome_none, Bool.false_eq_true, if_false]
    cases hid : o.sampleEveryById.get? id with
    | some rate' =>
      simp only [Option.isNone_some, Bool.false_eq_true, if_false]
      split <;> rfl
    | none =>
      simp only [Option.isNone_none, if_true, if_neg (Nat.not_le.mpr hrate)]

/-! ## What a sampler remembers -/

/-- The sampler remembers the draws among some events, and what became of the
begins that they leave open. -/
structure Tracks (s : Sampler) (o : Options) (log : List Screening) : Prop where
  rated : s.Rated o
  counts : ∀ id, 1 < o.rateOf id → s.countOf id = o.drawn log id
  scopes : o.hasSampling = true → ∀ opened,
    openBegins? (log.filter o.records) = some opened →
      s.scopes = opened.map Screening.kept

theorem tracks_ofOptions (o : Options) : (ofOptions o).Tracks o [] where
  rated := ⟨rfl, rfl⟩
  counts id _ := by
    unfold countOf
    split <;> rfl
  scopes _ opened h := by
    obtain rfl : [] = opened := Option.some.inj h
    rfl

/-- An event that the sampler does not hear of is not drawn. -/
theorem Tracks.skip (h : s.Tracks o log) (hx : o.records x = false ∨ o.hasSampling = false) :
    s.Tracks o (log ++ [x]) where
  rated := h.rated
  counts id hrate := by
    rw [h.counts id hrate, Options.drawn_concat]
    rcases hx with hx | hx
    · simp [Options.drawsOn, hx]
    · exact absurd (Options.rateOf_le_one hx id) (by omega)
  scopes hsampling opened hopened := by
    rcases hx with hx | hx
    · rw [List.filter_append, List.filter_cons_of_neg (by simp [hx]), List.filter_nil,
        List.append_nil] at hopened
      exact h.scopes hsampling opened hopened
    · exact absurd (hx.symm.trans hsampling) (by simp)

/-- The counts after an event that the sampler heard of. -/
theorem Tracks.counts_keep (h : s.Tracks o log) (hx : o.records x = true) {id : Int}
    (hrate : 1 < o.rateOf id) :
    (s.keep x.id x.kind).2.countOf id = o.drawn (log ++ [x]) id := by
  have hdraw : x.kind.draws = true →
      (s.draw x.id).2.countOf id = o.drawn (log ++ [x]) id := fun hkind => by
    rw [h.rated.countOf_draw hrate, h.counts id hrate, Options.drawn_concat]
    simp [Options.drawsOn, hx, hkind]
  have hquiet : x.kind.draws = false → s.countOf id = o.drawn (log ++ [x]) id := fun hkind => by
    rw [h.counts id hrate, Options.drawn_concat]
    simp [Options.drawsOn, hkind]
  cases hkind : x.kind with
  | scopeBegin => exact hdraw (by rw [hkind]; rfl)
  | instant | counter => exact hdraw (by rw [hkind]; rfl)
  | scopeEnd =>
    refine Eq.trans ?_ (hquiet (by rw [hkind]; rfl))
    unfold keep
    dsimp only
    split <;> rfl
  | flowStart | flowStep | flowEnd => exact hquiet (by rw [hkind]; rfl)

/-- **What a sampler heard of it remembers**: its draw, or that a begin was
kept. -/
theorem Tracks.keep (h : s.Tracks o log) (hx : o.records x = true)
    (hkept : x.kept = (s.keep x.id x.kind).1) :
    (s.keep x.id x.kind).2.Tracks o (log ++ [x]) where
  rated := h.rated.of_sameRates (s.sameRates_keep x.id x.kind)
  counts id hrate := h.counts_keep hx hrate
  scopes hsampling opened hopened := by
    rw [List.filter_append, List.filter_cons_of_pos hx, List.filter_nil, openBegins?_concat,
      Option.bind_eq_some_iff] at hopened
    obtain ⟨before, hbefore, hnest⟩ := hopened
    have hscopes := h.scopes hsampling before hbefore
    rcases Screening.nest_cases hnest with
      ⟨hkind, rfl⟩ | ⟨hkind, rfl, rfl⟩ | ⟨b, hkind, rfl, -⟩ | ⟨hkind, rfl⟩
    · rw [hkind] at hkept ⊢
      rw [scopes_keep_begin, hscopes, ← hkept]
      rfl
    · rw [hkind]
      simp only [Sampler.keep, hscopes, List.map_nil]
    · rw [hkind]
      simp only [Sampler.keep, hscopes, List.map_cons]
    · rw [scopes_keep s x.id hkind, hscopes]

end Sampler

/-! ## One event -/

namespace Screen

variable {s : Screen} {o : Options} {log : List Screening} {x : Screening} {now : Int}

theorem sampler_admits (s : Screen) (now : Int) : (s.admits now).2.sampler = s.sampler := by
  unfold admits
  split <;> rfl

/-- **An event gets past filter and sampling if its category and the sampler
let it**, and the sampler hears of it if its category does. -/
theorem Honest.screening (h : s.Honest o) (hx : x.verdict = (s.screen x.id x.kind now).1) :
    (x.verdict = .filtered ↔ o.records x = false) ∧
      (x.kept = (o.records x && (!s.sampler.isEnabled || (s.sampler.keep x.id x.kind).1))) ∧
      (s.screen x.id x.kind now).2.sampler =
        if o.records x && s.sampler.isEnabled then (s.sampler.keep x.id x.kind).2
        else s.sampler := by
  have hrecords : (s.passesFilter x.id).1 = o.records x := h.passesFilter x.id
  obtain ⟨hsampler, -⟩ := s.passesFilter_spec x.id
  rcases hlooked : s.passesFilter x.id with ⟨allowed, looked⟩
  rw [hlooked] at hrecords hsampler
  dsimp only at hrecords hsampler
  rw [Screening.kept, hx]
  unfold Screen.screen
  rw [hlooked, ← hrecords, ← hsampler]
  cases allowed with
  | false => exact ⟨by simp, rfl, rfl⟩
  | true =>
    dsimp only
    rcases hkept : looked.keeps x.id x.kind with ⟨kept, drawn⟩
    -- the sampler is asked only if some rate leaves events out
    have hkeeps : kept = (!looked.sampler.isEnabled || (looked.sampler.keep x.id x.kind).1) ∧
        drawn.sampler = if looked.sampler.isEnabled then (looked.sampler.keep x.id x.kind).2
          else looked.sampler := by
      unfold Screen.keeps at hkept
      split at hkept
      · next henabled =>
        obtain ⟨rfl, rfl⟩ := Prod.mk.inj hkept
        simp [henabled]
      · next henabled =>
        obtain ⟨rfl, rfl⟩ := Prod.mk.inj hkept
        simp [henabled]
    obtain ⟨hkeeps, hdrawn⟩ := hkeeps
    rw [← hkeeps, Bool.true_and, Bool.true_and, ← hdrawn]
    cases kept with
    | false => exact ⟨by simp, rfl, rfl⟩
    | true =>
      dsimp only
      have hadmits := sampler_admits drawn now
      split
      · next h =>
        rw [h] at hadmits
        exact ⟨by simp, rfl, hadmits⟩
      · next h =>
        rw [h] at hadmits
        exact ⟨by simp, rfl, hadmits⟩

/-- The screen treats events as the options ask, and remembers of some what it
needs. -/
structure Tracks (s : Screen) (o : Options) (log : List Screening) : Prop where
  honest : s.Honest o
  sampler : s.sampler.Tracks o log
  filtered : ∀ x ∈ log, o.records x = false → x.kept = false
  whole : o.hasSampling = false → ∀ x ∈ log, o.records x = true → x.kept = true

theorem tracks_ofOptions (o : Options) : (ofOptions o).Tracks o [] where
  honest := honest_ofOptions o
  sampler := Sampler.tracks_ofOptions o
  filtered _ hx := absurd hx List.not_mem_nil
  whole _ _ hx := absurd hx List.not_mem_nil

/-- **An event is treated as the history says.** -/
theorem Tracks.fair (h : s.Tracks o log) (hx : x.verdict = (s.screen x.id x.kind now).1) :
    x.Fair o log := by
  obtain ⟨hfiltered, hkept, -⟩ := h.honest.screening hx
  have hout : o.records x = false → x.kept = false := fun hx => by rw [hkept, hx, Bool.false_and]
  rw [h.sampler.rated.isEnabled] at hkept
  have hwhole : o.hasSampling = false → o.records x = true → x.kept = true := fun hs hx => by
    rw [hkept, hs, hx]
    rfl
  have hheard : o.hasSampling = true → o.records x = true →
      x.kept = (s.sampler.keep x.id x.kind).1 := fun hs hx => by
    rw [hkept, hs, hx]
    rfl
  refine ⟨hfiltered, ?_, ?_, ?_, ?_⟩
  · intro hallowed hkind
    cases hsampling : o.hasSampling with
    | false => simp [hwhole hsampling hallowed, Options.rateOf_le_one hsampling]
    | true =>
      have hdraw : (s.sampler.keep x.id x.kind).1 = (s.sampler.draw x.id).1 := by
        cases hk : x.kind with
        | scopeBegin | instant | counter => rfl
        | _ => exact absurd hkind (by simp [hk, Kind.draws])
      rw [hheard hsampling hallowed, hdraw, h.sampler.rated.draw_fst]
      by_cases hrate : o.rateOf x.id ≤ 1
      · simp [hrate]
      · rw [h.sampler.counts x.id (Nat.lt_of_not_le hrate)]
  · intro hallowed hkind
    cases hsampling : o.hasSampling with
    | false => exact hwhole hsampling hallowed
    | true =>
      rw [hheard hsampling hallowed]
      cases hk : x.kind with
      | flowStart | flowStep | flowEnd => rfl
      | _ => exact absurd hkind (by simp [hk, Kind.isFlow])
  · intro hkind b rest hopened hid
    have hb : b ∈ log := mem_of_openBegins? hopened List.mem_cons_self
    have hsame : o.records b = o.records x := congrArg o.allows hid
    cases hallowed : o.records x with
    | false => rw [hout hallowed, h.filtered b hb (hsame.trans hallowed)]
    | true =>
      have hballowed : o.records b = true := hsame.trans hallowed
      cases hsampling : o.hasSampling with
      | false => rw [hwhole hsampling hallowed, h.whole hsampling b hb hballowed]
      | true =>
        -- of the events that pass the filter the begin is the innermost open one too
        have hheld := openBegins?_filter o.records
          (fun _ _ _ _ _ _ _ _ hid => congrArg o.allows hid.symm) hopened
        rw [List.filter_cons_of_pos hballowed] at hheld
        have hscopes := h.sampler.scopes hsampling _ hheld
        rw [hheard hsampling hallowed, hkind]
        simp only [Sampler.keep, hscopes, List.map_cons]
  · intro hallowed hkind hopened
    cases hsampling : o.hasSampling with
    | false => exact hwhole hsampling hallowed
    | true =>
      have hheld := openBegins?_filter o.records
        (fun _ _ _ _ _ _ _ _ hid => congrArg o.allows hid.symm) hopened
      have hscopes := h.sampler.scopes hsampling _ hheld
      rw [hheard hsampling hallowed, hkind]
      simp only [Sampler.keep, hscopes, List.filter_nil, List.map_nil]

/-- **Screening an event adds it to what the screen remembers.** -/
theorem Tracks.screen (h : s.Tracks o log) (hx : x.verdict = (s.screen x.id x.kind now).1) :
    (s.screen x.id x.kind now).2.Tracks o (log ++ [x]) := by
  obtain ⟨-, hkept, hsampler⟩ := h.honest.screening hx
  rw [h.sampler.rated.isEnabled] at hkept hsampler
  refine ⟨h.honest.screen x.id x.kind now, ?_, ?_, ?_⟩
  · rw [hsampler]
    cases hallowed : o.records x with
    | false => exact h.sampler.skip (.inl hallowed)
    | true =>
      cases hsampling : o.hasSampling with
      | false => exact h.sampler.skip (.inr hsampling)
      | true =>
        refine h.sampler.keep hallowed ?_
        rw [hkept, hallowed, hsampling]
        rfl
  · intro y hy hallowed
    rcases List.mem_append.mp hy with hy | hy
    · exact h.filtered y hy hallowed
    · obtain rfl := List.mem_singleton.mp hy
      rw [hkept, hallowed, Bool.false_and]
  · intro hsampling y hy hallowed
    rcases List.mem_append.mp hy with hy | hy
    · exact h.whole hsampling y hy hallowed
    · obtain rfl := List.mem_singleton.mp hy
      rw [hkept, hallowed, hsampling]
      rfl

end Screen

end EventTrace
