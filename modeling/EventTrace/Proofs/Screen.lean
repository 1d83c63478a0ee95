import EventTrace.Admission.Screen
import Mathlib.Algebra.Order.Ring.Int
import Mathlib.Tactic.Common
/-!
# Screen — remembered answers are the filter's

A screen looks an id up in its filter once and remembers the answer. As long
as what it remembers is what the filter says, every later event of that id is
treated as the options ask (`Honest.passesFilter`), and screening an event
keeps it so. Without a rate limit the verdict is then up to the categories and
the sampler alone, and only the sampler changes (`Tuned.screen`).
-/

namespace EventTrace

namespace Screen

variable {s : Screen} {o : Options} {id : Int}

/-- The screen has the filter that the options ask for, and remembers nothing
but its answers. -/
structure Honest (s : Screen) (o : Options) : Prop where
  filter : s.filter = CategoryFilter.ofOptions? o
  answers : ∀ id answer f, s.answers.get? id = some answer → s.filter = some f →
    answer = f.allows id

theorem honest_ofOptions (o : Options) : (ofOptions o).Honest o where
  filter := rfl
  answers id answer f h _ := by
    have hnone : (ofOptions o).answers.get? id = none := Table.get?_empty id
    rw [hnone] at h
    exact absurd h (by simp)

/-- **An id passes exactly if the options' filter allows it.** -/
theorem Honest.passesFilter (h : s.Honest o) (id : Int) :
    (s.passesFilter id).1 = (CategoryFilter.ofOptions? o).all (·.allows id) := by
  unfold Screen.passesFilter
  rw [← h.filter]
  cases hf : s.filter with
  | none => rfl
  | some f =>
    dsimp only
    cases ha : s.answers.get? id with
    | none => rfl
    | some answer => exact h.answers id answer f ha hf

/-- An answer remembered is the filter's. -/
theorem Honest.remember (h : s.Honest o) (id : Int) : (s.passesFilter id).2.Honest o := by
  unfold Screen.passesFilter
  cases hf : s.filter with
  | none => exact h
  | some f =>
    dsimp only
    cases ha : s.answers.get? id with
    | some answer => exact h
    | none =>
      refine ⟨hf.symm.trans h.filter, ?_⟩
      intro i answer g hi hg
      dsimp only at hi hg
      by_cases heq : i = id
      · subst heq
        rw [Table.get?_insert_self, Option.some.injEq] at hi
        rw [Option.some.injEq] at hg
        rw [← hi, hg]
      · rw [Table.get?_insert_of_ne heq] at hi
        exact h.answers i answer g hi (hf.trans hg)

theorem Honest.keeps (h : s.Honest o) (id : Int) (kind : Kind) : (s.keeps id kind).2.Honest o := by
  unfold Screen.keeps
  split
  · exact ⟨h.filter, h.answers⟩
  · exact h

theorem Honest.admits (h : s.Honest o) (now : Int) : (s.admits now).2.Honest o := by
  unfold Screen.admits
  split
  · exact ⟨h.filter, h.answers⟩
  · exact h

/-- Screening an event keeps a screen honest. -/
theorem Honest.screen (h : s.Honest o) (id : Int) (kind : Kind) (now : Int) :
    (s.screen id kind now).2.Honest o := by
  have hremember := h.remember id
  unfold Screen.screen
  split
  · next s₁ hfilter => rwa [hfilter] at hremember
  · next s₁ hfilter =>
    rw [hfilter] at hremember
    have hkeeps := hremember.keeps id kind
    split
    · next s₂ hkept => rwa [hkept] at hkeeps
    · next s₂ hkept =>
      rw [hkept] at hkeeps
      have hadmits := hkeeps.admits now
      split
      · next s₃ hadmitted => rwa [hadmitted] at hadmits
      · next s₃ hadmitted => rwa [hadmitted] at hadmits

end Screen

/-! ## Without a rate limit -/

namespace Sampler

/-- Two samplers draw at the same rates. -/
def SameRates (s s' : Sampler) : Prop := s'.every = s.every ∧ s'.everyById = s.everyById

/-- A draw leaves the rates, and the decisions about open scopes. -/
theorem draw_spec (s : Sampler) (id : Int) :
    SameRates s (s.draw id).2 ∧ (s.draw id).2.scopes = s.scopes := by
  unfold draw
  split
  · split
    · exact ⟨⟨rfl, rfl⟩, rfl⟩
    · exact ⟨⟨rfl, rfl⟩, rfl⟩
  · split
    · exact ⟨⟨rfl, rfl⟩, rfl⟩
    · exact ⟨⟨rfl, rfl⟩, rfl⟩

theorem sameRates_keep (s : Sampler) (id : Int) (kind : Kind) :
    SameRates s (s.keep id kind).2 := by
  cases kind with
  | scopeBegin | instant | counter => exact (s.draw_spec id).1
  | scopeEnd =>
    unfold keep
    dsimp only
    split <;> exact ⟨rfl, rfl⟩
  | flowStart | flowStep | flowEnd => exact ⟨rfl, rfl⟩

/-- What is no scope leaves the decisions about scopes. -/
theorem scopes_keep (s : Sampler) (id : Int) {kind : Kind} (h : kind.isScope = false) :
    (s.keep id kind).2.scopes = s.scopes := by
  cases kind with
  | scopeBegin | scopeEnd => exact absurd h (by decide)
  | instant | counter => exact (s.draw_spec id).2
  | flowStart | flowStep | flowEnd => rfl

/-- A begin is remembered as it was decided. -/
theorem scopes_keep_begin (s : Sampler) (id : Int) :
    (s.keep id .scopeBegin).2.scopes = (s.keep id .scopeBegin).1 :: s.scopes := by
  rw [← (s.draw_spec id).2]
  rfl

theorem isEnabled_of_sameRates {s s' : Sampler} (h : SameRates s s') :
    s'.isEnabled = s.isEnabled := by
  rw [isEnabled, isEnabled, h.1, h.2]

end Sampler

/-- What the category lists of some options say of an id. -/
def Options.allows (o : Options) (id : Int) : Bool :=
  (CategoryFilter.ofOptions? o).all (·.allows id)

namespace Screen

variable {s : Screen} {o : Options}

/-- The screen is honest and has no rate limit, and its sampler is at work if
the options ask for one. -/
structure Tuned (s : Screen) (o : Options) : Prop where
  honest : s.Honest o
  limit : s.window.limit = 0
  sampler : s.sampler.isEnabled = o.hasSampling

theorem tuned_ofOptions (h : o.maxEventsPerSecond = 0) : (ofOptions o).Tuned o where
  honest := honest_ofOptions o
  limit := h
  sampler := Sampler.isEnabled_ofOptions o

/-- Looking an id up touches neither the sampler nor the window. -/
theorem passesFilter_spec (s : Screen) (id : Int) :
    (s.passesFilter id).2.sampler = s.sampler ∧ (s.passesFilter id).2.window = s.window := by
  unfold passesFilter
  split
  · exact ⟨rfl, rfl⟩
  · split
    · exact ⟨rfl, rfl⟩
    · exact ⟨rfl, rfl⟩

/-- A window without a limit lets everything pass. -/
theorem admits_of_limit (h : s.window.limit = 0) (now : Int) : s.admits now = (true, s) := by
  simp [admits, RateWindow.isEnabled, h]

/-- **Without a rate limit an event passes if its category and the sampler
let it**, and the sampler hears of it if its category does. -/
theorem Tuned.screen (h : s.Tuned o) (id : Int) (kind : Kind) (now : Int) :
    (s.screen id kind now).2.Tuned o ∧
      ((s.screen id kind now).1 = .passed ↔
        o.allows id = true ∧ (o.hasSampling = true → (s.sampler.keep id kind).1 = true)) ∧
      (s.screen id kind now).2.sampler =
        if o.allows id && o.hasSampling then (s.sampler.keep id kind).2 else s.sampler := by
  have hhonest := h.honest.screen id kind now
  have hallows : (s.passesFilter id).1 = o.allows id := h.honest.passesFilter id
  obtain ⟨hsampler, hwindow⟩ := s.passesFilter_spec id
  rcases hlooked : s.passesFilter id with ⟨allowed, looked⟩
  rw [hlooked] at hallows hsampler hwindow
  dsimp only at hallows hsampler hwindow
  have henabled : looked.sampler.isEnabled = o.hasSampling := by rw [hsampler, h.sampler]
  have hlimit : looked.window.limit = 0 := by rw [hwindow, h.limit]
  unfold Screen.screen at *
  rw [hlooked] at hhonest ⊢
  rw [← hallows, ← henabled, ← hsampler]
  cases allowed with
  | false => exact ⟨⟨hhonest, hlimit, henabled⟩, by simp, by simp⟩
  | true =>
    dsimp only at hhonest ⊢
    cases hsampling : looked.sampler.isEnabled with
    | false =>
      have hkeeps : looked.keeps id kind = (true, looked) := by simp [keeps, hsampling]
      simp only [hkeeps, admits_of_limit hlimit] at hhonest ⊢
      exact ⟨⟨hhonest, hlimit, henabled⟩, by simp, by simp⟩
    | true =>
      rcases hkept : looked.sampler.keep id kind with ⟨kept, drawn⟩
      have hrates := looked.sampler.sameRates_keep id kind
      rw [hkept] at hrates
      have hkeeps : looked.keeps id kind = (kept, { looked with sampler := drawn }) := by
        simp [keeps, hsampling, hkept]
      have htuned : drawn.isEnabled = o.hasSampling :=
        (Sampler.isEnabled_of_sameRates hrates).trans henabled
      cases kept with
      | false =>
        simp only [hkeeps] at hhonest ⊢
        exact ⟨⟨hhonest, hlimit, htuned⟩, by simp, by simp⟩
      | true =>
        have hadmits := admits_of_limit (s := { looked with sampler := drawn }) hlimit now
        simp only [hkeeps, hadmits] at hhonest ⊢
        exact ⟨⟨hhonest, hlimit, htuned⟩, by simp, by simp⟩

end Screen

end EventTrace
