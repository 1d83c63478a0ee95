import EventTrace.Table
/-!
# Metadata — names and categories of ids

Recording needs no names; a reader of a recording shows an id by the name a
provider has for it, or by the id itself. A provider is whatever answers for
ids: a dictionary with an entry per id, or a chain in which the first
provider that knows an id answers.
-/

namespace EventTrace

/-- What a provider knows of an id. -/
structure Entry where
  id : Int
  name : String
  category : Option String
deriving DecidableEq, Repr, Inhabited

/-- A source of entries. -/
structure Provider where
  get? : Int → Option Entry

instance : Inhabited Provider := ⟨⟨fun _ => none⟩⟩

/-! ## Dictionaries -/

/-- A fixed set of entries, one for each id. -/
structure Dictionary where
  entries : Table Entry := ∅

namespace Dictionary

/-- Files an entry, in place of an earlier one of the same id. -/
def add (d : Dictionary) (id : Int) (name : String) (category : Option String) : Dictionary :=
  ⟨d.entries.insert id ⟨id, name, category⟩⟩

/-- The number of ids with an entry. -/
def size (d : Dictionary) : Nat := d.entries.size

/-- Whether no id has an entry. -/
def isEmpty (d : Dictionary) : Bool := d.size == 0

/-- A dictionary as a source of entries. -/
def provider (d : Dictionary) : Provider := ⟨d.entries.get?⟩

end Dictionary

/-! ## Chains -/

/-- Providers in the order in which they are asked. -/
structure ProviderChain where
  providers : List Provider := []

namespace ProviderChain

/-- The first provider that knows an id answers for the chain. -/
def provider (c : ProviderChain) : Provider := ⟨fun id => c.providers.findSome? (·.get? id)⟩

/-- A chain as shown to a person. -/
def describe (c : ProviderChain) : String :=
  s!"CompositeMetadataProvider \x7b providers: {c.providers.length} \x7d"

end ProviderChain

/-! ## Shown names -/

/-- The name an id is shown by: the provider's, or the id itself where there
is no provider, no entry or no name in it. -/
def displayName (provider : Option Provider) (id : Int) : String :=
  match provider.bind (·.get? id) with
  | some entry => if entry.name = "" then toString id else entry.name
  | none => toString id

end EventTrace
