import SceneSearch.Scene.Path

/-!
# Starting scopes

A search starts where the user is: at the current page, or, with a selection, at the selected nodes
and the containers they are in. A scope inside another one would be searched twice, so only the
outermost are kept.
-/

namespace SceneSearch

/-! ## Containers -/

/-- The kinds of containers below pages. -/
def anchorKinds : List NodeKind :=
  [.sectionLayer, .frame, .group, .instanceLayer, .component, .componentSet]

/-- The nearest container at or above the node, if there is one below the page. -/
def Spot.anchor? (s : Spot) : Option Spot :=
  (s.chain.takeWhile (·.kind ≠ .page)).find? fun a ↦ anchorKinds.contains a.kind

/-! ## Sets of nodes -/

/-- The items without those whose key an earlier one has, or is among `seen`. -/
def firstOccurrences {α β : Type} [BEq β] (key : α → β) (seen : List β) : List α → List α
  | [] => []
  | a :: rest =>
    if seen.contains (key a) then firstOccurrences key seen rest
    else a :: firstOccurrences key (key a :: seen) rest

/-- The nodes of a list, each once. -/
def distinctSpots (spots : List Spot) : List Spot := firstOccurrences Spot.place [] spots

/-- The nodes of a list that are below no other one. -/
def pruneNested (spots : List Spot) : List Spot :=
  spots.filter fun s ↦ !(spots.any fun other ↦ !other.same s && s.isBelow other)

/-! ## Scopes -/

/-- The containers that a selection lives in; the page for layers outside containers. -/
def selectionAnchors (currentPage : Spot) (selection : List Spot) : List Spot :=
  if selection.isEmpty then [currentPage]
  else
    distinctSpots (selection.map fun s ↦ (s.anchor?.or s.page?).getD currentPage)

/-- The scopes of the first segment: the current page, or the selected nodes and, unless only their
children are searched, the containers they are in. -/
def initialScopes (currentPage : Spot) (selection : List Spot) (childSearch : Bool) : List Spot :=
  if selection.isEmpty then [currentPage]
  else
    let wanted := selection.flatMap fun s ↦ s :: (if childSearch then [] else s.anchor?.toList)
    let scopes := pruneNested (distinctSpots wanted)
    if scopes.isEmpty then [currentPage] else scopes

end SceneSearch
