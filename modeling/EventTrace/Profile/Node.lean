import EventTrace.Ranking
import EventTrace.Ticks
/-!
# Profile — nodes of a call tree

A node stands for all scopes of one id under one parent: how many there
were, their inclusive ticks (from begin to end), and their exclusive ticks
(without the scopes inside them). Siblings have distinct ids, so adding a
node to siblings of which one has its id joins the two, children included.
-/

namespace EventTrace

/-- The scopes of one id under one parent. -/
structure Node where
  id : Int
  count : Nat
  inclusive : Int
  exclusive : Int
  children : List Node
deriving Repr

namespace Node

instance : Inhabited Node := ⟨⟨0, 0, 0, 0, []⟩⟩

/-! ## Joining -/

/-- Changes the first sibling of an id, or adds a last one. -/
def place (id : Int) (join : Node → Node) (fresh : Node) : List Node → List Node
  | [] => [fresh]
  | s :: rest => if s.id = id then join s :: rest else s :: place id join fresh rest

mutual

/-- Adds a node to siblings. -/
def addTo : Node → List Node → List Node
  | ⟨id, count, inclusive, exclusive, children⟩, siblings =>
    place id
      (fun s => ⟨s.id, s.count + count, Ticks.wrap (s.inclusive + inclusive),
        Ticks.wrap (s.exclusive + exclusive), addAllTo children s.children⟩)
      ⟨id, count, inclusive, exclusive, children⟩ siblings

/-- Adds nodes to siblings, one after another. -/
def addAllTo : List Node → List Node → List Node
  | [], siblings => siblings
  | node :: rest, siblings => addAllTo rest (addTo node siblings)

end

/-- The sum of the inclusive ticks of some nodes. -/
def inclusiveSum : List Node → Int
  | [] => 0
  | node :: rest => node.inclusive + inclusiveSum rest

/-- The root over some nodes: it stands for no scope of its own, and its
inclusive ticks are the sum of theirs. -/
def root (children : List Node) : Node :=
  ⟨0, 0, Ticks.wrap (inclusiveSum children), 0, children⟩

/-! ## Order of siblings -/

mutual

/-- The node with siblings ranked at every level. -/
def ranked : Node → Node
  | ⟨id, count, inclusive, exclusive, children⟩ =>
    ⟨id, count, inclusive, exclusive,
      rankBy (fun child => (child.inclusive, child.id)) (rankedAll children)⟩

/-- The nodes, each with siblings ranked at every level. -/
def rankedAll : List Node → List Node
  | [] => []
  | node :: rest => ranked node :: rankedAll rest

end

theorem rankedAll_eq_map (nodes : List Node) : rankedAll nodes = nodes.map ranked := by
  induction nodes with
  | nil => rfl
  | cons node rest ih => rw [rankedAll, ih]; rfl

end Node

end EventTrace
