import SceneSearch.Scene.Document

/-!
# Editing scenes

Changes to a scene change a layer, load one more tree beside those that are there, or change links.
None of them moves a node to another place, so whoever holds on to nodes across a change, as a
selection or an index does, goes on to name them by their places. Nothing is indexed anew by a
change.

A node that is appended to a new parent goes on to be listed by the old one. It may be appended
anywhere, even to itself or to what is below it.
-/

namespace SceneSearch.Scene

/-! ## Changing trees -/

/-- A scene with a change made at a place. -/
def modifyAt (scene : Scene) (p : Place) (change : Node → Node) : Scene :=
  match p.tree with
  | 0 => { scene with root := scene.root.modifyAt change p.address }
  | n + 1 => { scene with others := scene.others.modify n (Node.modifyAt change p.address) }

def revise (scene : Scene) (p : Place) (change : Layer → Layer) : Scene :=
  scene.modifyAt p fun n ↦ { n with layer := change n.layer }

/-! ## Changing links -/

def relist (scene : Scene) (p : Place) (listed : List Place) : Scene :=
  { scene with links :=
    { scene.links with children := (p, listed) :: scene.links.children.filter (·.1 ≠ p) } }

def reparent (scene : Scene) (p : Place) (parent : Option Place) : Scene :=
  { scene with links :=
    { scene.links with parents := (p, parent) :: scene.links.parents.filter (·.1 ≠ p) } }

def reverse (scene : Scene) (s : Spot) : Scene :=
  scene.relist s.place (s.children.map Spot.place).reverse

/-- Takes a node out of its parent, at the first position that it is listed at. A root stays as it
is. -/
def detach (scene : Scene) (s : Spot) : Scene :=
  match s.parent? with
  | none => scene
  | some parent =>
    (scene.relist parent.place ((parent.children.map Spot.place).erase s.place)).reparent
      s.place none

/-- Puts a node behind the children of a parent, which is its parent from then on. -/
def append (scene : Scene) (parent child : Spot) : Scene :=
  (scene.relist parent.place (parent.children.map Spot.place ++ [child.place])).reparent
    child.place (some parent.place)

/-- Loads a tree, and puts its root behind the children of a parent. -/
def add (scene : Scene) (parent : Spot) (tree : Node) : Scene :=
  let loaded := { scene with others := scene.others ++ [tree] }
  loaded.append parent ⟨loaded, scene.others.length + 1, [], tree⟩

/-! ## Small laws -/

/-- A node lists what it was given to list last. -/
theorem listed?_relist {scene : Scene} {s : Spot} {listed : List Place}
    (h : s.scene = scene.relist s.place listed) : s.listed? = some listed := by
  simp [Spot.listed?, h, relist]

end SceneSearch.Scene
