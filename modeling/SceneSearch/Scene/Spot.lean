import SceneSearch.Scene.Node

/-!
# Scenes and spots

The nodes of a scene are those of its trees as they were loaded. What changes afterwards are
*links*: which children a node lists, and which parent a node has. The two are changed one by one.
So a node may be listed by several nodes, or several times by one, while the way up from it leads
to one parent at most, and a node may come to stand below itself.

A search speaks of nodes by where they stand, not by what they hold: two nodes with equal contents
at different places are different answers, and ids may be repeated. So a node is handled as a
`Spot`, the node together with its scene and with the parents above it in its tree. Its `Place`,
the tree and the positions on the way down as the tree was loaded, identifies it whatever becomes
of the links.
-/

namespace SceneSearch

/-! ## Places -/

/-- The address of a node: the number of its tree, and the positions from the root down. -/
structure Place where
  /-- The number of the tree; the document is tree zero. -/
  tree : Nat
  /-- Position below the root, below that child, and so on. -/
  address : List Nat
deriving DecidableEq, Repr

/-! ## Scenes -/

/-- The links that were changed. -/
structure Links where
  /-- What nodes list as their children now. -/
  children : List (Place × List Place) := []
  /-- Which parents nodes have now. -/
  parents : List (Place × Option Place) := []
deriving DecidableEq, Repr

/-- Trees side by side, and the links that were changed. -/
structure Scene where
  /-- The tree of the document. -/
  root : Node
  /-- The trees beside it. -/
  others : List Node := []
  /-- The links that were changed. -/
  links : Links := {}

def Scene.tree? (scene : Scene) : Nat → Option Node
  | 0 => some scene.root
  | n + 1 => scene.others[n]?

/-- The number of nodes of all trees. -/
def Scene.size (scene : Scene) : Nat := Node.totalSize (scene.root :: scene.others)

/-! ## Spots -/

/-- One step of the way up in a tree: a parent, and the position of the child that the way comes
from. -/
structure Crumb where
  /-- The parent. -/
  parent : Node
  /-- The position of the child. -/
  position : Nat

/-- A node where it stands. -/
structure Spot where
  /-- The scene. -/
  scene : Scene
  /-- The number of the tree. -/
  tree : Nat
  /-- The way up in the tree, the nearest parent first. -/
  above : List Crumb
  /-- The node. -/
  node : Node

namespace Spot

def layer (s : Spot) : Layer := s.node.layer

def id (s : Spot) : String := s.layer.id

def kind (s : Spot) : NodeKind := s.layer.kind

def name (s : Spot) : String := s.layer.name

def visible (s : Spot) : Bool := s.layer.visible

/-- Where the node stands. -/
def place (s : Spot) : Place := ⟨s.tree, (s.above.map Crumb.position).reverse⟩

/-- Whether two spots are the same node. -/
def same (a b : Spot) : Bool := a.place == b.place

@[simp] theorem same_iff {a b : Spot} : a.same b = true ↔ a.place = b.place := by
  simp [same]

/-! ## In the tree -/

/-- The child at a position, as the tree was loaded. -/
def child (s : Spot) (position : Nat) (node : Node) : Spot :=
  ⟨s.scene, s.tree, ⟨s.node, position⟩ :: s.above, node⟩

/-- The children as the tree was loaded. -/
def ownChildren (s : Spot) : List Spot := s.node.children.mapIdx s.child

/-- The parent as the tree was loaded. -/
def ownParent? (s : Spot) : Option Spot :=
  match s.above with
  | [] => none
  | crumb :: rest => some ⟨s.scene, s.tree, rest, crumb.parent⟩

/-- The node at an address below a spot. -/
def descend (s : Spot) : List Nat → Option Spot
  | [] => some s
  | position :: rest =>
    match s.node.children[position]? with
    | none => none
    | some node => (s.child position node).descend rest

end Spot

namespace Scene

def roots (scene : Scene) : List Spot :=
  (scene.root :: scene.others).mapIdx fun tree node ↦ ⟨scene, tree, [], node⟩

def at? (scene : Scene) (p : Place) : Option Spot :=
  match scene.tree? p.tree with
  | none => none
  | some node => Spot.descend ⟨scene, p.tree, [], node⟩ p.address

end Scene

/-! ## Neighbours -/

namespace Spot

/-- What the node lists as its children, if that was changed. -/
def listed? (s : Spot) : Option (List Place) :=
  (s.scene.links.children.find? fun e ↦ e.1 = s.place).map Prod.snd

/-- The parent that the node was given, or that it was left without one, if it was changed. -/
def given? (s : Spot) : Option (Option Place) :=
  (s.scene.links.parents.find? fun e ↦ e.1 = s.place).map Prod.snd

/-- The children, the backmost first. -/
def children (s : Spot) : List Spot :=
  match s.listed? with
  | none => s.ownChildren
  | some places => places.filterMap s.scene.at?

/-- The parent; a root has none. -/
def parent? (s : Spot) : Option Spot :=
  match s.given? with
  | none => s.ownParent?
  | some none => none
  | some (some p) => s.scene.at? p

/-- The node in another state of its scene. -/
def within (scene : Scene) (s : Spot) : Spot := (scene.at? s.place).getD s

/-! ## Laws -/

@[simp] theorem scene_child (s : Spot) (i : Nat) (n : Node) : (s.child i n).scene = s.scene := rfl

@[simp] theorem place_child (s : Spot) (i : Nat) (n : Node) :
    (s.child i n).place = ⟨s.tree, s.place.address ++ [i]⟩ := by
  simp [place, child]

/-- Without changed links a node has the children of its tree. -/
theorem children_of_links_eq {s : Spot} (h : s.scene.links = {}) : s.children = s.ownChildren := by
  simp [children, listed?, h]

/-- Without changed links a node has the parent of its tree. -/
theorem parent?_of_links_eq {s : Spot} (h : s.scene.links = {}) : s.parent? = s.ownParent? := by
  simp [parent?, given?, h]

theorem parent?_child {s : Spot} (h : s.scene.links = {}) (i : Nat) (n : Node) :
    (s.child i n).parent? = some s :=
  parent?_of_links_eq (s := s.child i n) h

end Spot

end SceneSearch
