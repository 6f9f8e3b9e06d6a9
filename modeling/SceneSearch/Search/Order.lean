import SceneSearch.Number.Double
import SceneSearch.Sorting.Adaptive
import SceneSearch.Scene.Path

/-!
# Reading order

An index such as `--3` counts in the order in which one would read the candidates on the screen.
One of three strategies is chosen for the whole list of candidates:

* along the axis of the scope, if the scope arranges its children by itself, then by depth;
* by rows, if the geometry of all candidates is known: rows from top to bottom, a row from left to
  right;
* by paint order, the frontmost first, otherwise.

Each ends with paint order and document order, which tell any two nodes apart.
-/

namespace SceneSearch

/-! ## Rows -/

/-- The least height of a row. -/
def rowEpsilonMin : Int := 8

/-- The part of the average height within which centres share a row. -/
def rowEpsilonFactor : Float := 0.35

/-- The height of a node where none is known. -/
def defaultNodeHeight : Float := 24

/-- The wording for an average height that has no floor. -/
def FloorFault.message : FloorFault → String
  | infinite => "cannot convert float infinity to integer"
  | nan => "cannot convert float NaN to integer"

/-- How a list of candidates is cut into rows. -/
structure RowMeasure where
  /-- The average height; unknown heights count as zero. -/
  average : Float
  /-- The distance of centres up to which nodes share a row. -/
  epsilon : Float

/-- The measure of a list of candidates. The distance is a part of the average height, rounded to
an integer with halves going up, and not below a fixed least one. -/
def RowMeasure.ofSpots (spots : List Spot) : Except FloorFault RowMeasure := do
  let heights := spots.map fun s ↦ orElseFloat (s.layer.height.getD 0) 0
  let average :=
    if heights.isEmpty then 0 else heights.foldl (· + ·) 0 / Float.ofNat heights.length
  let rounded ← floorOf (rowEpsilonFactor * orElseFloat average defaultNodeHeight + 0.5)
  pure ⟨average, Float.ofInt (max rowEpsilonMin rounded)⟩

/-- The vertical centre of a node; an unknown height is the average, or the usual one. -/
def RowMeasure.centre (m : RowMeasure) (s : Spot) : Float :=
  let height :=
    orElseFloat (s.layer.height.getD 0) (orElseFloat m.average defaultNodeHeight)
  orElseFloat (s.layer.y.getD 0) 0 + height / 2

/-- Row numbers of nodes. -/
abbrev Rows := List (Place × Nat)

namespace Rows

/-- The row of a node; the last one, if it was given several. -/
def rowOf (rows : Rows) (p : Place) : Nat :=
  ((rows.filter fun r ↦ r.1 == p).getLast?.map Prod.snd).getD 0

/-- Row numbers of some nodes give one to every place. -/
instance : Coe Rows (Place → Int) := ⟨fun rows p ↦ rows.rowOf p⟩

/-- Numbers the rows of nodes in the order of their centres. A centre that is more than `epsilon`
below the start of its row opens the next one. -/
def band (epsilon : Float) (row : Nat) (start : Float) : List (Float × Spot) → Rows
  | [] => []
  | (centre, s) :: rest =>
    if epsilon < centre - start then (s.place, row + 1) :: band epsilon (row + 1) centre rest
    else (s.place, row) :: band epsilon row start rest

/-- Lexicographic order of addresses: document order. -/
def addressLt : List Nat → List Nat → Bool
  | [], [] => false
  | [], _ :: _ => true
  | _ :: _, [] => false
  | a :: as, b :: bs => if a = b then addressLt as bs else a < b

/-- The order of centres, and of nodes whose centres are equal. -/
def centreLt (a b : Float × Spot) : Bool :=
  if a.1 == b.1 then addressLt a.2.address b.2.address else a.1 < b.1

def assign (spots : List Spot) : Except FloorFault Rows :=
  if spots.isEmpty then .ok []
  else do
    let measure ← RowMeasure.ofSpots spots
    match sortBy centreLt (spots.map fun s ↦ (measure.centre s, s)) with
    | [] => pure []
    | (top, s) :: rest => pure (band measure.epsilon 0 top ((top, s) :: rest))

end Rows

/-! ## Comparing two nodes -/

/-- Paint order of addresses: where the ways down part, the later child is in front; a node is
before what is below it. -/
def comparePaint : List Nat → List Nat → Ordering
  | [], [] => .eq
  | [], _ :: _ => .lt
  | _ :: _, [] => .gt
  | a :: as, b :: bs => if a = b then comparePaint as bs else compare b a

/-- The order of two numbers by the sign of their difference. -/
def orderingOfSign (difference : Float) : Ordering := compare (signOf difference) 0

inductive OrderStrategy where
  | axis
  | rows
  | fallback
deriving DecidableEq, Repr, Inhabited

def OrderStrategy.name : OrderStrategy → String
  | axis => "axis"
  | rows => "rows"
  | fallback => "fallback"

def OrderStrategy.ofName? (s : String) : Option OrderStrategy :=
  [axis, rows, fallback].find? (·.name == s)

/-- The order of one list of candidates. -/
structure VisualOrder where
  /-- The strategy. -/
  strategy : OrderStrategy
  /-- The scope, for the axis. -/
  scope : Option Spot := none
  /-- The rows, from top to bottom. -/
  rows : Place → Int := fun _ ↦ 0

namespace VisualOrder

/-- Left edge, zero where it is unknown. -/
def left (s : Spot) : Float := orElseFloat (s.layer.x.getD 0) 0

/-- Upper edge, zero where it is unknown. -/
def top (s : Spot) : Float := orElseFloat (s.layer.y.getD 0) 0

/-- Paint order. Nodes of different roots are not comparable by it. -/
def comparePaintOrder (a b : Spot) : Ordering :=
  if a.root.same b.root then comparePaint a.address b.address else .eq

/-- The order in which two places were loaded. -/
def comparePlaces (a b : Place) : Ordering :=
  (compare a.tree b.tree).then
    (if Rows.addressLt a.address b.address then .lt
    else if Rows.addressLt b.address a.address then .gt
    else .eq)

/-- Document order; nodes of different roots by their ids, then as they were loaded. -/
def compareDocumentOrder (a b : Spot) : Ordering :=
  if a.root.same b.root && a.address ≠ b.address then
    if Rows.addressLt a.address b.address then .lt else .gt
  else if a.id ≠ b.id then
    if a.id < b.id then .lt else .gt
  else comparePlaces a.place b.place

/-- Goes on to `next` where two numbers do not differ. A difference that is no number ends the
comparison undecided. -/
def byDifference (difference : Float) (next : Ordering) : Ordering :=
  if isNothing difference then next else orderingOfSign difference

/-- Rows from top to bottom, each from left to right, the frontmost first at one place. -/
def compareRows (rows : Place → Int) (a b : Spot) : Ordering :=
  (compare (rows a.place) (rows b.place)).then
    (byDifference (left a - left b) (comparePaintOrder a b))

/-- Along the axis of the scope, then by depth below it, then the frontmost first. -/
def compareAxis (scope a b : Spot) : Ordering :=
  let difference := if scope.layer.axis = some .vertical then top a - top b else left a - left b
  byDifference difference
    ((compare (a.depthBelow scope) (b.depthBelow scope)).then (comparePaintOrder a b))

/-- Paint order; from tree to tree from top to bottom and from left to right. -/
def compareFallback (a b : Spot) : Ordering :=
  (comparePaintOrder a b).then
    (if a.layer.hasGeometry && b.layer.hasGeometry then
      byDifference (top a - top b) (byDifference (left a - left b) .eq)
    else .eq)

/-- Compares two nodes. Only a node and itself are equal. -/
def compare (o : VisualOrder) (a b : Spot) : Ordering :=
  if a.same b then .eq
  else
    let result := match o.strategy, o.scope with
      | .axis, some scope => compareAxis scope a b
      | .rows, _ => compareRows o.rows a b
      | _, _ => compareFallback a b
    result.then (compareDocumentOrder a b)

def sort (o : VisualOrder) (spots : List Spot) : List Spot :=
  sortBy (fun a b ↦ o.compare a b == .lt) spots

/-- The order for a list of candidates, which were found below `scope` if one is given. -/
def forCandidates (spots : List Spot) (scope : Option Spot := none) :
    Except FloorFault VisualOrder :=
  -- one candidate without a position is enough to give up geometry for all
  if !spots.all (·.layer.hasGeometry) then .ok { strategy := .fallback }
  else if scope.any (·.layer.axis.isSome) then .ok { strategy := .axis, scope }
  else (Rows.assign spots).map fun rows ↦ ⟨.rows, none, rows⟩

end VisualOrder

/-- Nodes in reading order. -/
def sortVisually (spots : List Spot) (scope : Option Spot := none) :
    Except FloorFault (List Spot) :=
  (VisualOrder.forCandidates spots scope).map fun o ↦ o.sort spots

end SceneSearch
