import SceneSearch.Scene.Layer

/-!
# Nodes

A node is a layer with its children in paint order, the backmost first.
-/

namespace SceneSearch

/-! ## Nodes -/

/-- A layer and its children in paint order. -/
structure Node where
  /-- What the document says about the node itself. -/
  layer : Layer
  /-- The children, the backmost first. -/
  children : List Node
deriving Inhabited

namespace Node

/-! ## Size -/

mutual

/-- The number of nodes at and below a node. -/
def size : Node → Nat
  | ⟨_, children⟩ => 1 + totalSize children

/-- The number of nodes at and below any of a list of nodes. -/
def totalSize : List Node → Nat
  | [] => 0
  | c :: rest => c.size + totalSize rest

end

theorem size_eq (n : Node) : n.size = 1 + totalSize n.children := by
  obtain ⟨_, _⟩ := n
  rw [size]

theorem size_pos (n : Node) : 0 < n.size := by
  rw [size_eq]
  omega

theorem totalSize_append (a b : List Node) : totalSize (a ++ b) = totalSize a + totalSize b := by
  induction a with
  | nil => simp [totalSize]
  | cons c rest ih =>
    rw [List.cons_append, totalSize, totalSize, ih]
    omega

/-! ## Changes -/

/-- A node with a change made at an address below it. -/
def modifyAt (change : Node → Node) : List Nat → Node → Node
  | [], n => change n
  | position :: rest, n => { n with children := n.children.modify position (modifyAt change rest) }

/-! ## Growth -/

/-- The node at an address below a node. -/
def at? : List Nat → Node → Option Node
  | [], n => some n
  | position :: rest, n =>
    match n.children[position]? with
    | none => none
    | some c => at? rest c

/-- A node where the node at an address below it has more children, in front of the others. -/
def append (address : List Nat) (added : List Node) (n : Node) : Node :=
  n.modifyAt (fun parent ↦ { parent with children := parent.children ++ added }) address

/-- Where the next child of the node at an address will stand. -/
def nextAddress (address : List Nat) (n : Node) : List Nat :=
  address ++ [((n.at? address).map fun parent ↦ parent.children.length).getD 0]

end Node

end SceneSearch
