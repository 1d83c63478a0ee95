import EventTrace.Fnv
import EventTrace.Options.Basic
import EventTrace.Text.Record
/-!
# Category — which ids a writer records

Two lists of category names pick ids. If any category is enabled, an id is
recorded exactly when its category is one of those; otherwise unless its
category is disabled. An id without a category, or with an empty one, fails
the first test and passes the second. Names are compared by number.
-/

namespace EventTrace

/-- The category lists of some options, resolved through a provider. -/
structure CategoryFilter where
  metadata : Provider
  enabled : List Int
  disabled : List Int

namespace CategoryFilter

/-- The distinct numbers of some category names. -/
def numbers (names : List String) : List Int := (names.map categoryNumber).eraseDups

/-- The filter that options ask for: none without a category list or without
a provider to resolve categories. -/
def ofOptions? (o : Options) : Option CategoryFilter :=
  if o.hasCategoryFilter then
    o.metadata.map fun provider =>
      ⟨provider, numbers o.enabledCategories, numbers o.disabledCategories⟩
  else none

/-- The number of an id's category, `uncategorized` if it has none. -/
def categoryOf (f : CategoryFilter) (id : Int) : Int :=
  match (f.metadata.get? id).bind Entry.category with
  | some name => categoryNumber name
  | none => uncategorized

/-- Whether an id is recorded. -/
def allows (f : CategoryFilter) (id : Int) : Bool :=
  let category := f.categoryOf id
  if f.enabled.isEmpty then category == uncategorized || !f.disabled.contains category
  else category != uncategorized && f.enabled.contains category

/-- The filter as shown to a person. -/
def describe (f : CategoryFilter) : String :=
  Text.openRecord "CategoryFilter"
    [("enabled", toString f.enabled.length), ("disabled", toString f.disabled.length)]

end CategoryFilter

end EventTrace
