import EventTrace.Proofs.Depot.Drawing
import EventTrace.Proofs.Depot.Oblivious
/-!
# Depot — a writer's shortcuts are invisible

A writer takes two shortcuts. It looks the category of an id up once and
remembers the answer, and it does not ask a sampler that leaves nothing out. A
writer that takes only one of them, or neither, remembers other things: no
answers, or a decision about every open scope. Yet its tests say of every event
what the tests of a writer with both shortcuts say, and the two stay twins
(`Screen.Twins.screenBy`). No one else reads what tests remember, so two depots
whose writers are twins stay alike in everything else (`Twins.call`), and after
every run a write is answered alike (`shortcuts_invisible`).
-/

namespace EventTrace

open Depot

/-- Which shortcuts a writer takes. -/
structure Shortcuts where
  /-- The filter's answers are remembered. -/
  remembers : Bool
  /-- A sampler that leaves nothing out is not asked. -/
  skips : Bool
deriving DecidableEq, Repr

/-- Both shortcuts. -/
def Shortcuts.both : Shortcuts := ⟨true, true⟩

/-! ## Tests with some of the shortcuts -/

namespace Screen

/-- Whether an id passes the filter, which is asked every time unless its
answers are remembered. -/
def passesBy (cuts : Shortcuts) (s : Screen) (id : Int) : Bool × Screen :=
  if cuts.remembers then s.passesFilter id else (s.filter.all (·.allows id), s)

/-- Whether sampling keeps an event; the sampler is asked every time, unless
one that leaves nothing out is skipped. -/
def keepsBy (cuts : Shortcuts) (s : Screen) (id : Int) (kind : Kind) : Bool × Screen :=
  if cuts.skips then s.keeps id kind
  else
    let kept := s.sampler.keep id kind
    (kept.1, { s with sampler := kept.2 })

/-- What comes of a test: a verdict if it turns the event away, else what comes
of the next one. -/
def sift (tested : Bool × Screen) (verdict : Verdict) (next : Screen → Verdict × Screen) :
    Verdict × Screen :=
  match tested with
  | (false, s) => (verdict, s)
  | (true, s) => next s

/-- Screens an event with some of the shortcuts. -/
def screenBy (cuts : Shortcuts) (s : Screen) (id : Int) (kind : Kind) (now : Int) :
    Verdict × Screen :=
  sift (s.passesBy cuts id) .filtered fun s =>
    sift (s.keepsBy cuts id kind) .sampledOut fun s =>
      sift (s.admits now) .rateLimited fun s => (.passed, s)

/-- A writer's tests take both shortcuts. -/
theorem screenBy_both (s : Screen) (id : Int) (kind : Kind) (now : Int) :
    s.screenBy .both id kind now = s.screen id kind now := rfl

end Screen

/-! ## Samplers that leave nothing out -/

namespace Sampler

variable {s : Sampler} {o : Options}

/-- **A sampler whose rates leave nothing out keeps every event**, and decides
so about every scope. -/
theorem Rated.keep_of_not_hasSampling (h : s.Rated o) (ho : o.hasSampling = false)
    (hs : ∀ kept ∈ s.scopes, kept = true) (id : Int) (kind : Kind) :
    (s.keep id kind).1 = true ∧ ∀ kept ∈ (s.keep id kind).2.scopes, kept = true := by
  have hdraw : (s.draw id).1 = true := (h.draw_fst id).mpr (.inl (o.rateOf_le_one ho id))
  cases kind with
  | scopeBegin =>
    refine ⟨hdraw, fun kept hkept => ?_⟩
    rw [scopes_keep_begin] at hkept
    rcases List.mem_cons.mp hkept with rfl | hkept
    · exact hdraw
    · exact hs kept hkept
  | scopeEnd =>
    unfold keep
    dsimp only
    split
    · exact ⟨rfl, hs⟩
    · next decided below hscopes =>
      rw [hscopes] at hs
      exact ⟨hs decided List.mem_cons_self,
        fun kept hkept => hs kept (List.mem_cons_of_mem _ hkept)⟩
  | instant | counter => exact ⟨hdraw, (s.draw_spec id).2 ▸ hs⟩
  | flowStart | flowStep | flowEnd => exact ⟨rfl, hs⟩

end Sampler

/-! ## Twins -/

namespace Screen

variable {s p : Screen} {o : Options} {cuts : Shortcuts} {id : Int} {kind : Kind} {now : Int}

/-- Two writers' tests say the same of every event, whatever each remembers:
both ask what the options ask, their windows are the same, and so are their
samplers if they leave anything out. If they leave nothing out, the second may
have decided about scopes, but each time to keep it. -/
structure Twins (o : Options) (s p : Screen) : Prop where
  honest : s.Honest o ∧ p.Honest o
  rated : s.sampler.Rated o ∧ p.sampler.Rated o
  window : p.window = s.window
  same : o.hasSampling = true → p.sampler = s.sampler
  kept : o.hasSampling = false → ∀ kept ∈ p.sampler.scopes, kept = true

theorem twins_ofOptions (o : Options) : Twins o (ofOptions o) (ofOptions o) where
  honest := ⟨honest_ofOptions o, honest_ofOptions o⟩
  rated := ⟨⟨rfl, rfl⟩, ⟨rfl, rfl⟩⟩
  window := rfl
  same _ := rfl
  kept _ _ hkept := absurd hkept List.not_mem_nil

/-- The filter says of an id what the options say, remembered or not, and
nothing else is touched. -/
theorem Honest.passesBy (h : s.Honest o) (cuts : Shortcuts) (id : Int) :
    (s.passesBy cuts id).1 = o.allows id ∧ (s.passesBy cuts id).2.Honest o ∧
      (s.passesBy cuts id).2.sampler = s.sampler ∧ (s.passesBy cuts id).2.window = s.window := by
  unfold Screen.passesBy
  split
  · obtain ⟨hsampler, hwindow⟩ := s.passesFilter_spec id
    exact ⟨h.passesFilter id, h.remember id, hsampler, hwindow⟩
  · rw [h.filter]
    exact ⟨rfl, h, rfl, rfl⟩

namespace Twins

/-- A look at the filter leaves twins. -/
theorem passesBy (h : Twins o s p) (cuts : Shortcuts) (id : Int) :
    (p.passesBy cuts id).1 = (s.passesFilter id).1 ∧
      Twins o (s.passesFilter id).2 (p.passesBy cuts id).2 := by
  obtain ⟨hsaid, hhonest, hsampler, hwindow⟩ := h.honest.1.passesBy .both id
  obtain ⟨hsaid', hhonest', hsampler', hwindow'⟩ := h.honest.2.passesBy cuts id
  refine ⟨hsaid'.trans hsaid.symm, ⟨hhonest, hhonest'⟩, ?_, ?_, ?_, ?_⟩
  · exact ⟨hsampler.symm ▸ h.rated.1, hsampler'.symm ▸ h.rated.2⟩
  · exact hwindow'.trans (h.window.trans hwindow.symm)
  · exact fun ho => hsampler'.trans ((h.same ho).trans hsampler.symm)
  · exact fun ho => hsampler'.symm ▸ h.kept ho

/-- Where something is left out, the sampler is asked, shortcut or not. -/
theorem keepsBy_of_isEnabled (h : s.sampler.isEnabled = true) (cuts : Shortcuts) :
    s.keepsBy cuts id kind =
      ((s.sampler.keep id kind).1, { s with sampler := (s.sampler.keep id kind).2 }) := by
  unfold keepsBy
  split
  · rw [keeps, if_pos h]
  · rfl

/-- **A question to the sampler leaves twins**, also if only one of them is
asked. -/
theorem keepsBy (h : Twins o s p) (cuts : Shortcuts) (id : Int) (kind : Kind) :
    (p.keepsBy cuts id kind).1 = (s.keeps id kind).1 ∧
      Twins o (s.keeps id kind).2 (p.keepsBy cuts id kind).2 := by
  have henabled : s.sampler.isEnabled = o.hasSampling := h.rated.1.isEnabled
  have henabled' : p.sampler.isEnabled = o.hasSampling := h.rated.2.isEnabled
  cases ho : o.hasSampling with
  | true =>
    have hasked : s.keeps id kind = _ := keepsBy_of_isEnabled (henabled.trans ho) .both
    have hrated := h.rated.1.of_sameRates (s.sampler.sameRates_keep id kind)
    rw [hasked, keepsBy_of_isEnabled (henabled'.trans ho), h.same ho]
    refine ⟨rfl, ⟨?_, ?_⟩, ⟨hrated, hrated⟩, h.window, fun _ => rfl, fun hno => ?_⟩
    · exact ⟨h.honest.1.filter, h.honest.1.answers⟩
    · exact ⟨h.honest.2.filter, h.honest.2.answers⟩
    · rw [ho] at hno
      exact absurd hno (by decide)
  | false =>
    have hskipped : s.keeps id kind = (true, s) := by
      rw [keeps, henabled, ho, if_neg Bool.false_ne_true]
    rw [hskipped]
    unfold Screen.keepsBy
    split
    · rw [keeps, henabled', ho, if_neg Bool.false_ne_true]
      exact ⟨rfl, h⟩
    · -- the sampler is asked, and all it can do is to keep
      obtain ⟨hkeep, hscopes⟩ :=
        h.rated.2.keep_of_not_hasSampling ho (h.kept ho) id kind
      refine ⟨hkeep, ⟨h.honest.1, h.honest.2.filter, h.honest.2.answers⟩, ⟨h.rated.1, ?_⟩,
        h.window, fun hyes => ?_, fun _ => hscopes⟩
      · exact h.rated.2.of_sameRates (p.sampler.sameRates_keep id kind)
      · rw [ho] at hyes
        exact absurd hyes (by decide)

/-- A question to the rate window leaves twins. -/
theorem admits (h : Twins o s p) (now : Int) :
    (p.admits now).1 = (s.admits now).1 ∧ Twins o (s.admits now).2 (p.admits now).2 := by
  have hhonest := h.honest.1.admits now
  have hhonest' := h.honest.2.admits now
  unfold Screen.admits at hhonest hhonest' ⊢
  rw [h.window] at hhonest' ⊢
  split
  · next hlimit =>
    rw [if_pos hlimit] at hhonest hhonest'
    exact ⟨rfl, ⟨hhonest, hhonest'⟩, h.rated, rfl, h.same, h.kept⟩
  · exact ⟨rfl, h⟩

/-- Where a test says the same of both, and so does what comes next, the verdict
is the same. -/
theorem sift {tested tested' : Bool × Screen} {next next' : Screen → Verdict × Screen}
    (h : tested'.1 = tested.1 ∧ Twins o tested.2 tested'.2) (verdict : Verdict)
    (hnext : ∀ {s p}, Twins o s p → (next' p).1 = (next s).1 ∧ Twins o (next s).2 (next' p).2) :
    (Screen.sift tested' verdict next').1 = (Screen.sift tested verdict next).1 ∧
      Twins o (Screen.sift tested verdict next).2 (Screen.sift tested' verdict next').2 := by
  obtain ⟨answer, s⟩ := tested
  obtain ⟨answer', p⟩ := tested'
  obtain ⟨hanswer, htwins⟩ := h
  obtain rfl : answer' = answer := hanswer
  cases answer' with
  | false => exact ⟨rfl, htwins⟩
  | true => exact hnext htwins

/-- **Twins say the same of every event, and stay twins.** -/
theorem screenBy (h : Twins o s p) (cuts : Shortcuts) (id : Int) (kind : Kind) (now : Int) :
    (p.screenBy cuts id kind now).1 = (s.screenBy .both id kind now).1 ∧
      Twins o (s.screenBy .both id kind now).2 (p.screenBy cuts id kind now).2 :=
  sift (h.passesBy cuts id) _ fun h => sift (h.keepsBy cuts id kind) _ fun h =>
    sift (h.admits now) _ fun h => ⟨rfl, h⟩

end Twins

end Screen

/-! ## Writing with some of the shortcuts -/

namespace Depot

variable {d p b : Depot} {k : CollectorId} {w : WriterId} {e : Emission} {now : Reading}

/-- What becomes of an event by what its writer's tests say. -/
def settle (d : Depot) (w : WriterId) (k : CollectorId) (e : Emission) (stamp : Int) :
    Verdict → Bool × Depot
  | .filtered => (false, d)
  | .sampledOut => (false, d.recordSampledOut k)
  | .rateLimited => (false, d.recordRateLimited k)
  | .passed => d.place w k e stamp

/-- Records an event with some of the shortcuts: whether it was written. -/
def writeBy (cuts : Shortcuts) (d : Depot) (w : WriterId) (e : Emission) (now : Reading) :
    Bool × Depot :=
  match d.writer? w with
  | none => (false, d)
  | some s =>
    match s.collector with
    | none => (false, d.detach w)
    | some k =>
      if d.isWriterClosed s then (false, d.detach w)
      else
        let screened := s.screen.screenBy cuts e.id e.kind now.arrival
        (d.rescreen w screened.2).settle w k e now.stamp screened.1

/-- A writer takes both shortcuts. -/
theorem writeBy_both (d : Depot) (w : WriterId) (e : Emission) (now : Reading) :
    d.writeBy .both w e now = d.write w e now := by
  unfold writeBy write
  cases d.writer? w with
  | none => rfl
  | some s =>
    dsimp only
    cases s.collector with
    | none => rfl
    | some k =>
      dsimp only
      rw [Screen.screenBy_both]
      split
      · rfl
      · cases (s.screen.screen e.id e.kind now.arrival).1 <;> rfl

theorem settle_withScreens (d : Depot) (screens : WriterId → Screen) (w : WriterId)
    (k : CollectorId) (e : Emission) (stamp : Int) (verdict : Verdict) :
    (d.withScreens screens).settle w k e stamp verdict =
      ((d.settle w k e stamp verdict).1, (d.settle w k e stamp verdict).2.withScreens screens) := by
  cases verdict with
  | passed => exact place_withScreens d screens k w e stamp
  | filtered | sampledOut => rfl
  | rateLimited => exact congrArg (Prod.mk false) (recordRateLimited_withScreens d screens k)

theorem reaches_withScreens (d : Depot) (screens : WriterId → Screen) (w : WriterId) :
    (d.withScreens screens).reaches w = d.reaches w := by
  rw [reaches, reaches, writer?_withScreens]
  cases d.writer? w <;> rfl

/-- A write that reaches no session has its writer leave. -/
theorem writeBy_of_not_reaches (h : d.reaches w = none) (cuts : Shortcuts) (e : Emission)
    (now : Reading) : d.writeBy cuts w e now = (false, d.detach w) := by
  unfold reaches at h
  unfold writeBy
  cases hw : d.writer? w with
  | none => rw [detach, hw]
  | some s =>
    rw [hw, Option.bind_some] at h
    dsimp only
    cases hs : s.collector with
    | none => rfl
    | some k =>
      rw [hs] at h
      dsimp only
      split
      · rfl
      · next hopen => simp [hopen] at h

/-- **A write takes from its writer's tests a verdict**, and leaves them what
they learned. -/
theorem writeBy_withScreens (h : d.reaches w = some k) (screens : WriterId → Screen)
    (cuts : Shortcuts) (e : Emission) (now : Reading) :
    let screened := (screens w).screenBy cuts e.id e.kind now.arrival
    let settled := d.settle w k e now.stamp screened.1
    (d.withScreens screens).writeBy cuts w e now =
      (settled.1, settled.2.withScreens (Function.update screens w screened.2)) := by
  obtain ⟨s, hw, hs, hopen⟩ := reaches_eq_some.mp h
  intro screened settled
  unfold writeBy
  rw [writer?_withScreens, hw, Option.map_some]
  dsimp only
  rw [Writer.collector_withScreen, hs, isWriterClosed_withScreens, hopen]
  dsimp only
  rw [if_neg Bool.false_ne_true, rescreen_withScreens, settle_withScreens]
  rfl

/-! ## Depots whose writers are twins -/

/-- Two depots that differ in nothing but their writers' tests, which are
twins. -/
def Twins (d p : Depot) : Prop :=
  ∃ (b : Depot) (screens others : WriterId → Screen), d = b.withScreens screens ∧
    p = b.withScreens others ∧ ∀ w, ∃ o, Screen.Twins o (screens w) (others w)

end Depot

/-- The depot after a call, with some of the shortcuts. -/
def Call.applyBy (cuts : Shortcuts) (d : Depot) : Call → Depot
  | write w e now => (d.writeBy cuts w e now).2
  | c => c.apply d

namespace Depot

variable {d p b : Depot} {k : CollectorId} {w : WriterId} {e : Emission} {now : Reading}

/-- A depot without writers is its own twin. -/
theorem twins_ofCapacity (capacity : Nat) : Twins (ofCapacity capacity) (ofCapacity capacity) :=
  ⟨ofCapacity capacity, fun _ => .ofOptions {}, fun _ => .ofOptions {}, rfl, rfl,
    fun _ => ⟨{}, Screen.twins_ofOptions {}⟩⟩

namespace Twins

/-- One writer's tests may change, if they stay twins. -/
theorem update {screens others : WriterId → Screen} {s p : Screen} {o : Options}
    (h : ∀ w, ∃ o, Screen.Twins o (screens w) (others w)) (hs : Screen.Twins o s p)
    (w v : WriterId) :
    ∃ o, Screen.Twins o (Function.update screens w s v) (Function.update others w p v) := by
  by_cases hv : v = w
  · subst hv
    rw [Function.update_self, Function.update_self]
    exact ⟨o, hs⟩
  · rw [Function.update_of_ne hv, Function.update_of_ne hv]
    exact h v

/-- **A write is answered alike, and leaves twins.** -/
theorem write (h : Twins d p) (cuts : Shortcuts) (w : WriterId) (e : Emission) (now : Reading) :
    (p.writeBy cuts w e now).1 = (d.write w e now).1 ∧
      Twins (d.write w e now).2 (p.writeBy cuts w e now).2 := by
  obtain ⟨b, screens, others, rfl, rfl, htwins⟩ := h
  rw [← writeBy_both]
  cases hreach : b.reaches w with
  | none =>
    have hnone : ∀ screens : WriterId → Screen, (b.withScreens screens).reaches w = none :=
      fun screens => (reaches_withScreens b screens w).trans hreach
    rw [writeBy_of_not_reaches (hnone others), writeBy_of_not_reaches (hnone screens),
      detach_withScreens, detach_withScreens]
    exact ⟨rfl, b.detach w, screens, others, rfl, rfl, htwins⟩
  | some k =>
    obtain ⟨o, hw⟩ := htwins w
    obtain ⟨hverdict, hscreens⟩ := hw.screenBy cuts e.id e.kind now.arrival
    rw [writeBy_withScreens hreach, writeBy_withScreens hreach, hverdict]
    exact ⟨rfl, _, _, _, rfl, rfl, update htwins hscreens w⟩

/-- What has no regard to tests leaves twins. -/
theorem oblivious (h : Twins d p) (f : Depot → Depot)
    (hf : ∀ d screens, f (d.withScreens screens) = (f d).withScreens screens) :
    Twins (f d) (f p) := by
  obtain ⟨b, screens, others, rfl, rfl, htwins⟩ := h
  exact ⟨f b, screens, others, hf b screens, hf b others, htwins⟩

/-- **Every call leaves twins.** -/
theorem call (h : Twins d p) (cuts : Shortcuts) (c : Call) :
    Twins (c.apply d) (c.applyBy cuts p) := by
  cases c with
  | newCollector options => exact h.oblivious (fun d => (d.newCollector options).2) fun _ _ => rfl
  | newWriter k thread name =>
    obtain ⟨b, screens, others, rfl, rfl, htwins⟩ := h
    dsimp only [Call.applyBy, Call.apply]
    rw [newWriter_withScreens, newWriter_withScreens]
    show Twins (if k < b.collectors.size then _ else _) (if k < b.collectors.size then _ else _)
    split
    · exact ⟨_, _, _, rfl, rfl, update htwins (Screen.twins_ofOptions _) _⟩
    · exact ⟨b, screens, others, rfl, rfl, htwins⟩
  | write w e now => exact (h.write cuts w e now).2
  | detach w => exact h.oblivious (·.detach w) fun d screens => detach_withScreens d screens w
  | dropWriter w =>
    exact h.oblivious (·.dropWriter w) fun d screens => dropWriter_withScreens d screens w
  | close k => exact h.oblivious (·.close k) fun _ _ => rfl
  | closeWriters k =>
    exact h.oblivious (fun d => (d.closeWriters k).2) fun d screens =>
      congrArg Prod.snd (closeWriters_withScreens d screens k)
  | freeze k =>
    exact h.oblivious (fun d => (d.freeze k).2) fun d screens =>
      congrArg Prod.snd (freeze_withScreens d screens k)

/-- **Every run leaves twins.** -/
theorem run (h : Twins d p) (cuts : Shortcuts) (calls : List Call) :
    Twins (calls.foldl Call.apply d) (calls.foldl (Call.applyBy cuts) p) := by
  induction calls generalizing d p with
  | nil => exact h
  | cons c calls ih => exact ih (h.call cuts c)

/-- Twins differ in nothing but their writers' tests. -/
theorem exists_eq_withScreens (h : Twins d p) :
    ∃ screens : WriterId → Screen, p = d.withScreens screens := by
  obtain ⟨b, screens, others, rfl, rfl, -⟩ := h
  exact ⟨others, (withScreens_withScreens b screens others).symm⟩

end Twins

end Depot

/-- **A writer's shortcuts are invisible.** Let every writer take both shortcuts,
or let every writer leave one or both of them out: ask the filter about every
event, ask the sampler about every event that passes. After every run a write
is answered alike, a session that is frozen gives the same events, and the
depots have the same tallies, the same chunks with the same events and the same
record; they differ in nothing but what writers' tests remember. And a writer
skips its sampler exactly if its session's options ask for no sampling. -/
theorem shortcuts_invisible (cuts : Shortcuts) (capacity : Nat) (calls : List Call) :
    let d := calls.foldl Call.apply (Depot.ofCapacity capacity)
    let p := calls.foldl (Call.applyBy cuts) (Depot.ofCapacity capacity)
    (∀ w e now, (p.writeBy cuts w e now).1 = (d.write w e now).1) ∧
    (∀ k, (p.freeze k).1 = (d.freeze k).1) ∧
    p.collectors = d.collectors ∧ p.chunks = d.chunks ∧ p.journal = d.journal ∧
    (∃ screens : WriterId → Screen, p = d.withScreens screens) ∧
    ∀ w s k, d.writer? w = some s → s.collector = some k →
      s.screen.sampler.isEnabled = (d.collector k).options.hasSampling := by
  intro d p
  have htwins : Twins d p := (twins_ofCapacity capacity).run cuts calls
  obtain ⟨screens, hp⟩ := htwins.exists_eq_withScreens
  refine ⟨fun w e now => (htwins.write cuts w e now).1, ?_, ?_, ?_, ?_, ⟨screens, hp⟩, ?_⟩
  · intro k
    rw [hp, freeze_withScreens]
  · rw [hp]
    rfl
  · rw [hp]
    rfl
  · rw [hp]
    rfl
  · intro w s k hw hs
    have htracks := (Chronicle.Drawn.ofCalls capacity calls).tracks w s k
    rw [Chronicle.depot_ofCalls] at htracks
    exact (htracks hw hs).1.sampler.rated.isEnabled

/-- A session that leaves out a category but samples nothing, and the writes of
one writer: an end that closes nothing, a begin that stays open, and an id of
the category left out, twice. -/
def Call.looseEnds : List Call :=
  let write (id : Int) (kind : Kind) : Call := .write 0 { id, kind } ⟨0, 0⟩
  [.newCollector
      { disabledCategories := ["io"],
        metadata := some (Dictionary.provider (Dictionary.add {} 9 "read" (some "io"))) },
    .newWriter 0 1 none, write 1 .scopeEnd, write 2 .scopeBegin, write 9 .instant, write 9 .instant]

/-- Without its shortcuts the writer remembers the open scope and no answer,
where it would remember three answers and no scope; nothing else is different. -/
theorem shortcuts_invisible_looseEnds :
    let d := Call.looseEnds.foldl Call.apply (Depot.ofCapacity 4)
    let p := Call.looseEnds.foldl (Call.applyBy ⟨false, false⟩) (Depot.ofCapacity 4)
    ((d.writer? 0).map (·.screen.sampler.scopes) = some [] ∧
      (d.writer? 0).map (·.screen.answers.keys) = some [1, 2, 9]) ∧
    ((p.writer? 0).map (·.screen.sampler.scopes) = some [true] ∧
      (p.writer? 0).map (·.screen.answers.keys) = some []) ∧
    p.collectors = d.collectors ∧ p.chunks = d.chunks ∧
    ∃ s, d.writer? 0 = some s ∧ s.screen.sampler.isEnabled = false := by
  obtain ⟨-, -, hcollectors, hchunks, -, -, hsampler⟩ :=
    shortcuts_invisible ⟨false, false⟩ 4 Call.looseEnds
  refine ⟨⟨by decide +kernel, by decide +kernel⟩, ⟨by decide +kernel, by decide +kernel⟩,
    hcollectors, hchunks, ?_⟩
  have hhome : ((Call.looseEnds.foldl Call.apply (Depot.ofCapacity 4)).writer? 0).map
      Writer.collector = some (some 0) := by decide +kernel
  obtain ⟨s, hw, hs⟩ := Option.map_eq_some_iff.mp hhome
  exact ⟨s, hw, (hsampler 0 s 0 hw hs).trans (by decide +kernel)⟩

end EventTrace
