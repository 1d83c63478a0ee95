import EventTrace.Admission.Category
import Mathlib.Tactic.Common
/-!
# Categories — a filter decides by name, up to confusion

A filter compares category names by their numbers. The empty name has a number
of its own, so it is never taken for another; two other names have one number
exactly if their hashes agree, a hash of zero counting as one
(`categoryNumber_eq_iff`). So a filter takes an id for one of a listed category
if its own category is listed, or is confused with a name that is
(`categories_decide`). Confusion is rare, but there is such a thing
(`not_selectedBy_colliding`).
-/

namespace EventTrace

/-! ## Confused names -/

/-- The hash by which a name that is not empty is compared: that of its bytes,
where zero counts as one. -/
def nameHash (name : String) : UInt32 :=
  let hash := Fnv.hash32 name.toUTF8.toList
  if hash = 0 then 1 else hash

/-- Two different names that are compared as if they were one. -/
structure Confused (a b : String) : Prop where
  ne : a ≠ b
  left : a ≠ ""
  right : b ≠ ""
  hash : nameHash a = nameHash b

/-- A word and its signed reading tell each other. -/
theorem toInt_toInt32_inj {a b : UInt32} : a.toInt32.toInt = b.toInt32.toInt ↔ a = b := by
  refine ⟨fun heq => ?_, fun heq => by rw [heq]⟩
  have hword := congrArg Int32.toUInt32 (Int32.toInt_inj.mp heq)
  rwa [UInt32.toUInt32_toInt32, UInt32.toUInt32_toInt32] at hword

/-- The number of a name is its hash, read as a signed word. -/
theorem categoryNumber_of_ne {name : String} (h : name ≠ "") :
    categoryNumber name = (nameHash name).toInt32.toInt := by
  unfold categoryNumber nameHash
  rw [if_neg h]
  dsimp only
  generalize Fnv.hash32 name.toUTF8.toList = hash
  by_cases hzero : hash = 0
  · rw [if_pos hzero, hzero]
    rfl
  · have hword : hash.toInt32.toInt ≠ 0 := fun heq => hzero (toInt_toInt32_inj.mp heq)
    rw [if_neg hzero, Fnv.avoidZero, if_neg hword]

/-- **Names have one number exactly if they are one or confused.** -/
theorem categoryNumber_eq_iff {a b : String} :
    categoryNumber a = categoryNumber b ↔ a = b ∨ Confused a b := by
  constructor
  · intro heq
    by_cases hab : a = b
    · exact .inl hab
    -- the number of the empty name is that of no other
    have ha : a ≠ "" := by
      rintro rfl
      exact hab (categoryNumber_eq_uncategorized_iff.mp heq.symm).symm
    have hb : b ≠ "" := by
      rintro rfl
      exact hab (categoryNumber_eq_uncategorized_iff.mp heq)
    rw [categoryNumber_of_ne ha, categoryNumber_of_ne hb, toInt_toInt32_inj] at heq
    exact .inr ⟨hab, ha, hb, heq⟩
  · rintro (rfl | hconfused)
    · rfl
    · rw [categoryNumber_of_ne hconfused.left, categoryNumber_of_ne hconfused.right, hconfused.hash]

/-! ## What the lists select -/

/-- The category that a provider gives an id. -/
def Provider.category? (p : Provider) (id : Int) : Option String := (p.get? id).bind Entry.category

/-- Whether category lists select an id of some category, by a reading of what
it is for a list to name a category: if any category is enabled, those named
there, and otherwise all but those named among the disabled ones. An id without
a category, or with an empty one, is named nowhere. -/
def Options.SelectsBy (named : List String → String → Prop) (o : Options)
    (category : Option String) : Prop :=
  if o.enabledCategories = [] then
    ∀ name, category = some name → name = "" ∨ ¬ named o.disabledCategories name
  else ∃ name, category = some name ∧ name ≠ "" ∧ named o.enabledCategories name

/-- A list names the categories that it lists. -/
def Lists (names : List String) (name : String) : Prop := name ∈ names

/-- A list names the categories that it lists, and those that are confused with
one of them. -/
def ListsAlike (names : List String) (name : String) : Prop :=
  name ∈ names ∨ ∃ listed ∈ names, Confused listed name

/-- Two readings select alike if they name alike. -/
theorem Options.selectsBy_congr {named named' : List String → String → Prop} {o : Options}
    {category : Option String}
    (henabled : ∀ name, category = some name →
      (named o.enabledCategories name ↔ named' o.enabledCategories name))
    (hdisabled : ∀ name, category = some name →
      (named o.disabledCategories name ↔ named' o.disabledCategories name)) :
    o.SelectsBy named category ↔ o.SelectsBy named' category := by
  unfold SelectsBy
  split
  · refine forall_congr' fun name => forall_congr' fun hname => ?_
    rw [hdisabled name hname]
  · refine exists_congr fun name => and_congr_right fun hname => ?_
    rw [henabled name hname]

namespace CategoryFilter

variable {names : List String} {name : String} {id : Int}

/-- A number is among those of some names if a name is, or one it is confused
with. -/
theorem contains_numbers :
    (numbers names).contains (categoryNumber name) = true ↔ ListsAlike names name := by
  rw [List.contains_iff_mem, numbers, List.mem_eraseDups, List.mem_map]
  constructor
  · rintro ⟨listed, hlisted, heq⟩
    rcases categoryNumber_eq_iff.mp heq with rfl | hconfused
    · exact .inl hlisted
    · exact .inr ⟨listed, hlisted, hconfused⟩
  · rintro (hlisted | ⟨listed, hlisted, hconfused⟩)
    · exact ⟨name, hlisted, rfl⟩
    · exact ⟨listed, hlisted, categoryNumber_eq_iff.mpr (.inr hconfused)⟩

theorem isEmpty_numbers : (numbers names).isEmpty = true ↔ names = [] := by
  cases names with
  | nil => exact ⟨fun _ => rfl, fun _ => rfl⟩
  | cons first rest => simp [numbers, List.eraseDups_cons]

/-- **A filter allows what its lists select**, where they name their names and
those confused with them. -/
theorem allows_iff {f : CategoryFilter} {o : Options}
    (henabled : f.enabled = numbers o.enabledCategories)
    (hdisabled : f.disabled = numbers o.disabledCategories) :
    f.allows id = true ↔ o.SelectsBy ListsAlike (f.metadata.category? id) := by
  have hcategory : f.categoryOf id =
      (f.metadata.category? id).elim uncategorized categoryNumber := by
    unfold categoryOf Provider.category?
    cases (f.metadata.get? id).bind Entry.category <;> rfl
  unfold allows Options.SelectsBy
  dsimp only
  rw [hcategory, henabled, hdisabled]
  by_cases hnone : o.enabledCategories = []
  · rw [if_pos (isEmpty_numbers.mpr hnone), if_pos hnone]
    cases f.metadata.category? id with
    | none => simp
    | some name =>
      rw [Option.elim_some, Bool.or_eq_true, beq_iff_eq, categoryNumber_eq_uncategorized_iff,
        Bool.not_eq_true', ← Bool.not_eq_true, contains_numbers]
      simp
  · rw [if_neg (mt isEmpty_numbers.mp hnone), if_neg hnone]
    cases f.metadata.category? id with
    | none => simp
    | some name =>
      rw [Option.elim_some, Bool.and_eq_true, bne_iff_ne, Ne, categoryNumber_eq_uncategorized_iff,
        contains_numbers]
      simp

end CategoryFilter

/-- **Category lists decide by name, up to confusion.** Options with a provider
and a list have a filter, and it allows an id exactly if the lists select the
category that the provider gives it, where a list names its names and those
confused with one of them. So it goes by the names alone for every id whose
category is confused with no listed name. -/
theorem categories_decide (o : Options) (p : Provider) (hp : o.metadata = some p)
    (hlists : o.hasCategoryFilter = true) :
    ∃ f, CategoryFilter.ofOptions? o = some f ∧ ∀ id,
      (f.allows id = true ↔ o.SelectsBy ListsAlike (p.category? id)) ∧
      ((∀ name, p.category? id = some name →
          ∀ listed ∈ o.enabledCategories ++ o.disabledCategories, ¬ Confused listed name) →
        (f.allows id = true ↔ o.SelectsBy Lists (p.category? id))) := by
  refine ⟨⟨p, CategoryFilter.numbers o.enabledCategories,
    CategoryFilter.numbers o.disabledCategories⟩, ?_, fun id => ?_⟩
  · rw [CategoryFilter.ofOptions?, if_pos hlists, hp]
    rfl
  have hallows : CategoryFilter.allows ⟨p, CategoryFilter.numbers o.enabledCategories,
      CategoryFilter.numbers o.disabledCategories⟩ id = true ↔
        o.SelectsBy ListsAlike (p.category? id) := CategoryFilter.allows_iff rfl rfl
  refine ⟨hallows, fun hclear => hallows.trans ?_⟩
  -- where no listed name is confused with the category, being named is being listed
  have hnamed : ∀ names ⊆ o.enabledCategories ++ o.disabledCategories, ∀ name,
      p.category? id = some name → (ListsAlike names name ↔ Lists names name) := by
    intro names hsub name hname
    refine ⟨fun halike => halike.resolve_right ?_, .inl⟩
    rintro ⟨listed, hlisted, hconfused⟩
    exact hclear name hname listed (hsub hlisted) hconfused
  exact Options.selectsBy_congr (hnamed _ (List.subset_append_left ..))
    (hnamed _ (List.subset_append_right ..))

/-- A provider that gives ids categories whose names are confused: of one hash,
or of a hash that is zero and one that is one. -/
def colliding : Provider :=
  (((({} : Dictionary).add 7 "star" (some "costarring")).add 8 "water" (some "liquid")).add 9 "nil"
    (some "ppkttia")).provider

/-- With two disabled categories that no id has, both ids whose categories are
confused with them are left out, and the one with a listed category is. -/
theorem categories_decide_disabled :
    let o : Options :=
      { disabledCategories := ["liquid", "3wbh48b"], metadata := some colliding }
    Confused "liquid" "costarring" ∧ Confused "3wbh48b" "ppkttia" ∧
    ∃ f, CategoryFilter.ofOptions? o = some f ∧ f.allows 7 = false ∧ f.allows 8 = false ∧
      f.allows 9 = false ∧ f.allows 10 = true := by
  intro o
  have hstar : Confused "liquid" "costarring" :=
    ⟨by decide, by decide, by decide, by decide +kernel⟩
  have hnil : Confused "3wbh48b" "ppkttia" := ⟨by decide, by decide, by decide, by decide +kernel⟩
  obtain ⟨f, hf, hallows⟩ := categories_decide o colliding rfl rfl
  have hout : ∀ id name, colliding.category? id = some name → name ≠ "" →
      ListsAlike o.disabledCategories name → f.allows id = false := by
    intro id name hname hne hlisted
    refine Bool.eq_false_iff.mpr fun hallowed => ?_
    rcases (hallows id).1.mp hallowed name hname with hempty | hnot
    · exact hne hempty
    · exact hnot hlisted
  refine ⟨hstar, hnil, f, hf, hout 7 "costarring" rfl (by decide) (.inr ⟨_, .head _, hstar⟩),
    hout 8 "liquid" rfl (by decide) (.inl (.head _)),
    hout 9 "ppkttia" rfl (by decide) (.inr ⟨_, .tail _ (.head _), hnil⟩), (hallows 10).1.mpr ?_⟩
  exact fun name hname => nomatch hname

/-- **The names alone do not decide.** With one category enabled, an id is
allowed whose category is another. -/
theorem not_selectedBy_colliding :
    let o : Options := { enabledCategories := ["liquid"], metadata := some colliding }
    ∃ f, CategoryFilter.ofOptions? o = some f ∧ f.allows 7 = true ∧
      ¬ o.SelectsBy Lists (colliding.category? 7) := by
  intro o
  refine ⟨⟨colliding, CategoryFilter.numbers ["liquid"], []⟩, rfl, by decide +kernel, ?_⟩
  rintro ⟨name, hname, -, hlisted⟩
  rw [show colliding.category? 7 = some "costarring" from rfl, Option.some.injEq] at hname
  exact absurd (hname ▸ hlisted : "costarring" ∈ ["liquid"]) (by decide)

end EventTrace
