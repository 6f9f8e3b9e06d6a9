import SceneSearch.Query.Symbol
import SceneSearch.Scene.Spot

/-!
# Ancestry and displayed paths

What can be said about a node by looking up from it: its ancestors and the root they end in, the
page it is on, how deep it is, which ancestor it shares with another node, and the path that is
displayed for it. A displayed path starts below the document and leaves out the ancestors that have
no mark.

The way up goes along a tree until it comes to a node whose parent was changed, and on from the
parent that was given. A way that has gone along every changed link comes to nothing new, so it
ends there, even where a node stands below itself.
-/

namespace SceneSearch.Spot

/-! ## The way up -/

/-- The ancestors of a node of a tree, where `onward` gives those of a node whose parent was
changed. -/
def climb (onward : Option Place → List Spot) (scene : Scene) (tree : Nat) (node : Node) :
    List Crumb → List Spot
  | [] =>
    match given? ⟨scene, tree, [], node⟩ with
    | some parent => onward parent
    | none => []
  | crumb :: rest =>
    match given? ⟨scene, tree, crumb :: rest, node⟩ with
    | some parent => onward parent
    | none => ⟨scene, tree, rest, crumb.parent⟩ :: climb onward scene tree crumb.parent rest

/-- The ancestors, the nearest first, up to a number of changed links. -/
def ancestorsAlong : (changes : Nat) → Spot → List Spot
  | 0, s => climb (fun _ ↦ []) s.scene s.tree s.node s.above
  | changes + 1, s =>
    -- the way goes on from the given parent, in whichever tree that is
    let onward (parent : Option Place) : List Spot :=
      match parent.bind s.scene.at? with
      | none => []
      | some p => p :: ancestorsAlong changes p
    climb onward s.scene s.tree s.node s.above

/-- The ancestors, the nearest first. -/
def ancestors (s : Spot) : List Spot := s.ancestorsAlong s.scene.links.parents.length

def chain (s : Spot) : List Spot := s :: s.ancestors

/-- The node that the way up ends in. -/
def root (s : Spot) : Spot := s.chain.getLast (List.cons_ne_nil _ _)

/-! ## Positions -/

/-- The position of a node among the children of its parent; the first one, if it is listed several
times. -/
def positionIn (s parent : Spot) : Nat :=
  match parent.listed? with
  | some places => places.idxOf s.place
  | none =>
    match s.above with
    | [] => 0
    | crumb :: _ => crumb.position

/-- Positions from the root down to the node. Their lexicographic order is document order. -/
def address (s : Spot) : List Nat :=
  ((s.chain.zip s.ancestors).map fun step ↦ step.1.positionIn step.2).reverse

/-! ## Ancestry -/

/-- Ancestors below the nearest document, from the outermost to the parent. -/
def lineage (s : Spot) : List Spot := (s.ancestors.takeWhile (·.kind ≠ .document)).reverse

/-- The nearest page at or above the node. -/
def page? (s : Spot) : Option Spot := s.chain.find? (·.kind == .page)

/-- Whether `candidate` is a strict ancestor of `s`. -/
def isBelow (s candidate : Spot) : Bool := s.ancestors.any (·.same candidate)

/-- The nearest node that is at or above both nodes. -/
def commonAncestor? (a b : Spot) : Option Spot := b.chain.find? fun n ↦ a.chain.any n.same

/-- The number of steps up from the node to `scope`, or to the root where `scope` is not above. -/
def depthBelow (s scope : Spot) : Nat :=
  min (s.chain.takeWhile (!·.same scope)).length s.ancestors.length

/-! ## Displayed paths -/

def label (s : Spot) : String := s.layer.label

/-- The displayed path of a node, such as `#Page/$Section/@Card/=Label`. -/
def path (s : Spot) : String :=
  let marked := s.lineage.filter fun a ↦ TypeSymbol.ofLayer a.layer ≠ .any
  "/".intercalate (marked.map label ++ [s.label])

/-- The displayed path of a node that was found at or below `scope`: the path of the scope and the
node itself, whatever lies between. -/
def pathFrom (s scope : Spot) : String :=
  if s.same scope then s.path else scope.path ++ "/" ++ s.label

end SceneSearch.Spot
