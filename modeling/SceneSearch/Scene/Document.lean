import SceneSearch.Scene.Walk

/-!
# Documents

A document is a scene whose first root has kind `document` and whose pages are children of that
root. A document as it is loaded is one tree, and no link of it was changed.

Looking a node up by id goes through an index that is built on demand and not kept up to date by
itself. The index remembers ids as they were; the nodes it names are followed wherever they move.
-/

namespace SceneSearch

/-- A scene and the index of its ids. -/
structure Document where
  /-- The nodes. -/
  scene : Scene
  /-- Ids as of the last indexing, in document order, with the places that had them. -/
  index : List (String × Place) := []

namespace Document

def root (d : Document) : Spot := ⟨d.scene, 0, [], d.scene.root⟩

/-- The pages: the children of the root that have kind `page`. -/
def pages (d : Document) : List Spot := d.root.children.filter (·.kind == .page)

/-- The document with its index built anew. -/
def reindex (d : Document) : Document :=
  { d with index := d.root.subtree.map fun s ↦ (s.id, s.place) }

/-- The document that is a tree. -/
def ofRoot (root : Node) : Document := reindex { scene := { root } }

/-- The node that the index has for an id; the last one, where an id is repeated. -/
def get? (d : Document) (id : String) : Option Spot :=
  (d.index.reverse.find? fun e ↦ e.1 == id).bind fun e ↦ d.scene.at? e.2

@[simp] theorem scene_ofRoot (root : Node) : (ofRoot root).scene = { root } := rfl

end Document

/-- The first node with an id, in the order in which the trees were loaded. -/
def Scene.withId? (scene : Scene) (id : String) : Option Spot :=
  (scene.roots.flatMap Spot.preorder).find? (·.id == id)

end SceneSearch
