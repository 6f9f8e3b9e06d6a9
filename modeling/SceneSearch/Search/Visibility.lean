import SceneSearch.Query.Plan
import SceneSearch.Scene.Path

/-!
# Visibility

Whether a node may be a match depends on the mode of the segment. By default a node counts as
visible only if every node on the way up to the scope of the search is; the way ends at a page,
whose own flag does not matter.
-/

namespace SceneSearch.Spot

/-- The node and its ancestors below `scope` and below the nearest page or document. -/
def belowScope (s : Spot) (scope : Option Spot) : List Spot :=
  s.chain.takeWhile fun a ↦ !(scope.any a.same) && !a.kind.isRootLike

/-- Whether the node and every ancestor below `scope` are visible. -/
def isEffectivelyVisible (s : Spot) (scope : Option Spot := none) : Bool :=
  (s.belowScope scope).all (·.visible)

/-- Whether the node may be a match in a mode when it is looked for below `scope`. -/
def isEligible (s : Spot) (mode : VisibilityMode) (scope : Option Spot := none) : Bool :=
  match mode with
  | .all => true
  | .hiddenOnly => !s.visible
  | .default => s.isEffectivelyVisible scope

end SceneSearch.Spot
