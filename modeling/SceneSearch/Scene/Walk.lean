import SceneSearch.Scene.Spot

/-!
# Walks

All traversals of a scene visit a node before its children and the children in paint order. They
keep a list of what waits to be visited, and put the children of a node in front of it. They differ
in which children they are shown, and in what they record at a node or whether they leave it out.

A walk goes as the links go. Where a node has come to stand below itself it goes round for ever, so
every walk is given a number of steps, which is enough for any other one: the main statement is
that without changed links a walk records what the recursion over the tree does. With changed links
a walk may leave the tree that it starts in, and has a step for every node of the scene.
-/

namespace SceneSearch

/-! ## Walking -/

/-- What a walk records in a number of steps: `record` gives what it records at the first of what
waits, or nothing if it leaves that out together with everything below. -/
def walk {α β : Type} (below : β → List β) (record : β → Option (List α)) : Nat → List β → List α
  | 0, _ => []
  | _ + 1, [] => []
  | steps + 1, b :: waiting =>
    match record b with
    | none => walk below record steps waiting
    | some here => here ++ walk below record steps (below b ++ waiting)

/-- Steps beyond the size of the scene that each changed link adds to a walk. -/
def spareSteps : Nat := Nat.pow 2 50

/-- Which children of a node a walk is shown. -/
abbrev Exposure := Layer → Layer → Bool

/-- A walk that is shown every child. -/
def Exposure.everything : Exposure := fun _ _ ↦ true

namespace Spot

variable {α : Type}

/-- The children that a walk is shown. -/
def shownChildren (shown : Exposure) (s : Spot) : List Spot :=
  s.children.filter fun c ↦ shown s.layer c.layer

/-- The number of steps of a walk at and below the node. -/
def steps (s : Spot) : Nat :=
  let changes := s.scene.links.children.length + s.scene.links.parents.length
  s.node.size + (spareSteps + s.scene.size) * changes

/-- What a walk records at and below a node. -/
def gather (shown : Exposure) (record : Spot → Option (List α)) (s : Spot) : List α :=
  walk (shownChildren shown) record s.steps [s]

/-- What a walk records strictly below a node. -/
def gatherBelow (shown : Exposure) (record : Spot → Option (List α)) (s : Spot) : List α :=
  walk (shownChildren shown) record s.steps (s.shownChildren shown)

/-! ## The common walks -/

/-- The node and everything below it, in document order. -/
def subtree (s : Spot) : List Spot := s.gather Exposure.everything fun a ↦ some [a]

/-- What is shown strictly below a node, in document order, without the nodes that `prune` names
and without what is below those. -/
def descendants (shown : Exposure) (prune : Spot → Bool) (s : Spot) : List Spot :=
  s.gatherBelow shown fun a ↦ if prune a then none else some [a]

/-! ## The recursion over a tree -/

mutual

/-- What is recorded at and below a node of a tree. -/
def treeRecords (shown : Exposure) (record : Spot → Option (List α)) (scene : Scene) (tree : Nat)
    (above : List Crumb) : Node → List α
  | ⟨layer, children⟩ =>
    match record ⟨scene, tree, above, ⟨layer, children⟩⟩ with
    | none => []
    | some here => here ++ childRecords shown record scene tree above ⟨layer, children⟩ 0 children

/-- What is recorded at and below the children of `parent` from a position on. -/
def childRecords (shown : Exposure) (record : Spot → Option (List α)) (scene : Scene) (tree : Nat)
    (above : List Crumb) (parent : Node) (position : Nat) : List Node → List α
  | [] => []
  | c :: rest =>
    (if shown parent.layer c.layer then
      treeRecords shown record scene tree (⟨parent, position⟩ :: above) c
    else []) ++ childRecords shown record scene tree above parent (position + 1) rest

end

/-- What is recorded at and below a node of a tree, as the tree was loaded. -/
def records (shown : Exposure) (record : Spot → Option (List α)) (s : Spot) : List α :=
  treeRecords shown record s.scene s.tree s.above s.node

/-- The nodes of a tree in document order, as the tree was loaded. -/
def preorder (s : Spot) : List Spot := s.records Exposure.everything fun a ↦ some [a]

/-- The shown children, as the tree was loaded. -/
def ownShownChildren (shown : Exposure) (s : Spot) : List Spot :=
  s.ownChildren.filter fun c ↦ shown s.layer c.layer

theorem childRecords_eq_flatMap (shown : Exposure) (record : Spot → Option (List α)) (s : Spot)
    (position : Nat) (nodes : List Node) :
    childRecords shown record s.scene s.tree s.above s.node position nodes =
      (((nodes.zipIdx position).map fun c ↦ s.child c.2 c.1).filter
        fun c ↦ shown s.layer c.layer).flatMap (records shown record) := by
  induction nodes generalizing position with
  | nil => simp [childRecords]
  | cons c rest ih =>
    rw [childRecords, ih, List.zipIdx_cons, List.map_cons, List.filter_cons]
    by_cases h : shown s.node.layer c.layer
    · simp [h, layer, child, records]
    · simp [h, layer, child]

/-- At a node of a tree is recorded what is recorded there, then what is recorded at and below its
shown children in turn. -/
theorem records_eq (shown : Exposure) (record : Spot → Option (List α)) (s : Spot) :
    s.records shown record =
      match record s with
      | none => []
      | some here => here ++ (s.ownShownChildren shown).flatMap (records shown record) := by
  rw [ownShownChildren, ownChildren, List.mapIdx_eq_zipIdx_map, ← childRecords_eq_flatMap]
  obtain ⟨scene, tree, above, ⟨layer, children⟩⟩ := s
  rw [records, treeRecords]

/-! ## Walks in trees -/

def totalSteps (spots : List Spot) : Nat := Node.totalSize (spots.map Spot.node)

theorem totalSteps_cons (s : Spot) (rest : List Spot) :
    totalSteps (s :: rest) = s.node.size + totalSteps rest := by
  rw [totalSteps, List.map_cons, Node.totalSize, totalSteps]

theorem totalSteps_append (a b : List Spot) :
    totalSteps (a ++ b) = totalSteps a + totalSteps b := by
  rw [totalSteps, List.map_append, Node.totalSize_append, totalSteps, totalSteps]

theorem totalSteps_filter_le (p : Spot → Bool) (spots : List Spot) :
    totalSteps (spots.filter p) ≤ totalSteps spots := by
  induction spots with
  | nil => exact Nat.le_refl _
  | cons s rest ih =>
    rw [List.filter_cons, totalSteps_cons]
    by_cases h : p s
    · rw [if_pos h, totalSteps_cons]
      omega
    · rw [if_neg h]
      omega

theorem totalSteps_ownChildren (s : Spot) : totalSteps s.ownChildren + 1 = s.node.size := by
  have nodes : s.ownChildren.map Spot.node = s.node.children := by
    apply List.ext_getElem
    · simp [ownChildren]
    · simp [ownChildren, child]
  rw [totalSteps, nodes, Node.size_eq, Nat.add_comm]

theorem shownChildren_of_links_eq {s : Spot} (h : s.scene.links = {}) (shown : Exposure) :
    s.shownChildren shown = s.ownShownChildren shown := by
  rw [shownChildren, children_of_links_eq h, ownShownChildren]

theorem scene_of_mem_ownShownChildren {shown : Exposure} {s c : Spot}
    (h : c ∈ s.ownShownChildren shown) : c.scene = s.scene := by
  obtain ⟨i, hi, rfl⟩ := List.mem_mapIdx.mp (List.mem_filter.mp h).1
  rfl

/-- Without changed links a walk with a step for every node records what the recursion does. -/
theorem walk_eq_records (shown : Exposure) (record : Spot → Option (List α)) :
    ∀ (steps : Nat) (waiting : List Spot), (∀ s ∈ waiting, s.scene.links = {}) →
      totalSteps waiting ≤ steps →
        walk (shownChildren shown) record steps waiting =
          waiting.flatMap (records shown record) := by
  intro steps
  induction steps with
  | zero =>
    intro waiting _ h
    cases waiting with
    | nil => rfl
    | cons s rest =>
      have hpos := s.node.size_pos
      rw [totalSteps_cons] at h
      omega
  | succ steps ih =>
    intro waiting unchanged h
    cases waiting with
    | nil => rfl
    | cons s rest =>
      have hs : s.scene.links = {} := unchanged s List.mem_cons_self
      have hrest : ∀ r ∈ rest, r.scene.links = {} := fun r hr ↦
        unchanged r (List.mem_cons_of_mem s hr)
      have hsize : s.node.size + totalSteps rest ≤ steps + 1 := totalSteps_cons s rest ▸ h
      have hpos := s.node.size_pos
      rw [walk, List.flatMap_cons, records_eq]
      cases record s with
      | none => simpa using ih rest hrest (by omega)
      | some here =>
        have hchildren := totalSteps_filter_le (fun c ↦ shown s.layer c.layer) s.ownChildren
        have hown := totalSteps_ownChildren s
        simp only
        rw [shownChildren_of_links_eq hs, ih, List.flatMap_append, List.append_assoc]
        · intro r hr
          rcases List.mem_append.mp hr with hr | hr
          · rw [scene_of_mem_ownShownChildren hr, hs]
          · exact hrest r hr
        · rw [totalSteps_append, ownShownChildren]
          omega

/-- Without changed links a walk at and below a node is the recursion over its tree. -/
theorem gather_eq_records {s : Spot} (h : s.scene.links = {}) (shown : Exposure)
    (record : Spot → Option (List α)) : s.gather shown record = s.records shown record := by
  rw [gather, walk_eq_records]
  · simp
  · simpa using h
  · rw [totalSteps_cons, steps]
    exact Nat.add_le_add_left (Nat.zero_le _) _

/-- Without changed links a walk below a node goes through the shown children in turn. -/
theorem gatherBelow_eq_flatMap {s : Spot} (h : s.scene.links = {}) (shown : Exposure)
    (record : Spot → Option (List α)) :
    s.gatherBelow shown record = (s.ownShownChildren shown).flatMap (records shown record) := by
  have hchildren := totalSteps_filter_le (fun c ↦ shown s.layer c.layer) s.ownChildren
  have hown := totalSteps_ownChildren s
  rw [gatherBelow, shownChildren_of_links_eq h, walk_eq_records]
  · intro r hr
    rw [scene_of_mem_ownShownChildren hr, h]
  · rw [ownShownChildren, steps]
    omega

/-- Without changed links the subtree of a node is its nodes in document order. -/
theorem subtree_eq_preorder {s : Spot} (h : s.scene.links = {}) : s.subtree = s.preorder :=
  gather_eq_records h _ _

end Spot

end SceneSearch
