import SceneSearch.Proofs.Number.Level
import SceneSearch.Proofs.Scene.Address
import SceneSearch.Proofs.Scene.Orderly
import SceneSearch.Proofs.Sorting.Sorted
import SceneSearch.Search.Order

/-!
# The reading order of a tree

Each of the three strategies asks questions about two nodes, one after the other, until one of them
tells the nodes apart. For nodes of one tree whose positions are finite, each question is which of
two whole numbers is less, and the last ones are about the way down to a node, which no other node
has. So a node has a *standing*, a list of whole numbers, and nodes are compared as their standings
are. That is a strict total order. Document order, and all that is asked where paint order does not
decide, is needed for nodes of different trees only.
-/

namespace SceneSearch

/-- Where the position of a node is known, it is finite. -/
structure Spot.Measured (s : Spot) : Prop where
  /-- The left edge is finite. -/
  x : ∀ v ∈ s.layer.x, v.isFinite
  /-- The upper edge is finite. -/
  y : ∀ v ∈ s.layer.y, v.isFinite

/-- The way down to a node, such that the frontmost child has the least number. -/
def Spot.frontness (s : Spot) : List Int := s.address.map fun i : Nat ↦ -(i : Int)

open VisualOrder hiding compare

variable {r a b c s scope : Spot} {o : VisualOrder}

/-! ## Edges -/

theorem isFinite_edge {x : Option Float} (h : ∀ v ∈ x, v.isFinite) :
    (orElseFloat (x.getD 0) 0).isFinite := by
  refine isFinite_orElseFloat ?_ isFinite_zero
  match x with
  | none => exact isFinite_zero
  | some v => exact h v rfl

theorem Spot.Measured.isFinite_left (hs : s.Measured) : (left s).isFinite :=
  isFinite_edge hs.x

theorem Spot.Measured.isFinite_top (hs : s.Measured) : (top s).isFinite :=
  isFinite_edge hs.y

theorem then_of_ne_eq {d : Ordering} (h : d ≠ .eq) (next : Ordering) : d.then next = d := by
  match d with
  | .lt => rfl
  | .eq => exact absurd rfl h
  | .gt => rfl

theorem byDifference_sub {u v : Float} (hu : u.isFinite) (hv : v.isFinite) (next : Ordering) :
    byDifference (u - v) next = (compare (units u) (units v)).then next := by
  have hnothing := isNothing_sub hu hv
  rw [byDifference]
  by_cases heq : units u = units v
  · rw [if_pos (hnothing.mpr heq), heq, Std.ReflOrd.compare_self]
    rfl
  · have hne : compare (units u) (units v) ≠ .eq := fun h ↦ heq (compare_eq_iff_eq.mp h)
    rw [if_neg fun h ↦ heq (hnothing.mp h), orderingOfSign, compare_signOf_sub hu hv,
      then_of_ne_eq hne]

/-- The edge that the axis of a scope goes by. -/
def VisualOrder.along (scope s : Spot) : Float :=
  if scope.layer.axis = some .vertical then top s else left s

theorem Spot.Measured.isFinite_along (hs : s.Measured) (scope : Spot) :
    (along scope s).isFinite := by
  rw [along]
  split
  · exact hs.isFinite_top
  · exact hs.isFinite_left

/-! ## Comparing lists -/

theorem compare_append {a b : List Int} (h : a.length = b.length) (as bs : List Int) :
    compare (a ++ as) (b ++ bs) = (compare a b).then (compare as bs) := by
  induction a generalizing b with
  | nil =>
    obtain rfl := List.length_eq_zero_iff.mp h.symm
    rfl
  | cons i a ih =>
    obtain ⟨j, b, rfl⟩ := List.exists_cons_of_length_eq_add_one h.symm
    rw [List.cons_append, List.cons_append, List.compare_cons_cons, List.compare_cons_cons,
      ih (by simpa using h), Ordering.then_assoc]

theorem compare_append_left (front as bs : List Int) :
    compare (front ++ as) (front ++ bs) = compare as bs := by
  rw [compare_append rfl, Std.ReflOrd.compare_self]
  rfl

/-! ## Standing -/

/-- What the nodes of a tree are compared by. -/
def VisualOrder.standing (o : VisualOrder) (s : Spot) : List Int :=
  match o.strategy, o.scope with
  | .axis, some scope => units (along scope s) :: (s.depthBelow scope : Int) :: s.frontness
  | .rows, _ => o.rows s.place :: units (left s) :: s.frontness
  | _, _ => s.frontness

private theorem comparePaint_eq (p q : List Nat) :
    comparePaint p q =
      compare (p.map fun i : Nat ↦ -(i : Int)) (q.map fun i : Nat ↦ -(i : Int)) := by
  fun_induction comparePaint p q with
  | case1 => rfl
  | case2 => rfl
  | case3 => rfl
  | case4 p i q ih =>
    rw [ih, List.map_cons, List.map_cons, List.compare_cons_cons, Std.ReflOrd.compare_self]
    rfl
  | case5 i p j q hne =>
    have hne' : compare j i ≠ .eq := fun h ↦ hne (compare_eq_iff_eq.mp h).symm
    rw [List.map_cons, List.map_cons, List.compare_cons_cons, compare_neg, compare_natCast,
      then_of_ne_eq hne']

theorem comparePaintOrder_eq (ht : r.IsTree) (ha : r.Reaches a) (hb : r.Reaches b) :
    comparePaintOrder a b = compare a.frontness b.frontness := by
  have hroot : a.root.same b.root = true := by
    rw [ht.root_eq ha, ht.root_eq hb, Spot.same_iff]
  rw [comparePaintOrder, if_pos hroot, comparePaint_eq]
  rfl

theorem frontness_inj (ht : r.IsTree) (ha : r.Reaches a) (hb : r.Reaches b)
    (h : a.frontness = b.frontness) : a = b := by
  have hnegation : Function.Injective fun i : Nat ↦ -(i : Int) := fun i j hij ↦
    Int.ofNat.inj (Int.neg_inj.mp hij)
  exact ht.address_inj ha hb (List.map_injective_iff.mpr hnegation h)

theorem standing_inj (ht : r.IsTree) (o : VisualOrder) (ha : r.Reaches a) (hb : r.Reaches b)
    (h : o.standing a = o.standing b) : a = b := by
  refine frontness_inj ht ha hb ?_
  obtain ⟨strategy, scope, rows⟩ := o
  match strategy, scope with
  | .axis, some scope =>
    injection h with _ h
    injection h
  | .axis, none => exact h
  | .rows, _ =>
    injection h with _ h
    injection h
  | .fallback, _ => exact h

/-! ## The three strategies -/

private theorem compareAxis_eq (ht : r.IsTree) (ha : r.Reaches a) (hb : r.Reaches b)
    (hma : a.Measured)
    (hmb : b.Measured) (scope : Spot) :
    compareAxis scope a b =
      compare (units (along scope a) :: (a.depthBelow scope : Int) :: a.frontness)
        (units (along scope b) :: (b.depthBelow scope : Int) :: b.frontness) := by
  rw [List.compare_cons_cons, List.compare_cons_cons, compare_natCast,
    ← byDifference_sub (hma.isFinite_along scope) (hmb.isFinite_along scope),
    ← comparePaintOrder_eq ht ha hb, compareAxis, along, along]
  split
  · rfl
  · rfl

private theorem compareRows_eq (ht : r.IsTree) (ha : r.Reaches a) (hb : r.Reaches b)
    (hma : a.Measured)
    (hmb : b.Measured) (rows : Place → Int) :
    compareRows rows a b =
      compare (rows a.place :: units (left a) :: a.frontness)
        (rows b.place :: units (left b) :: b.frontness) := by
  rw [List.compare_cons_cons, List.compare_cons_cons, ← comparePaintOrder_eq ht ha hb,
    ← byDifference_sub hma.isFinite_left hmb.isFinite_left, compareRows]

theorem compareFallback_eq (ht : r.IsTree) (ha : r.Reaches a) (hb : r.Reaches b) (hne : a ≠ b) :
    compareFallback a b = compare a.frontness b.frontness := by
  have hdecided : compare a.frontness b.frontness ≠ .eq := fun h ↦
    hne (frontness_inj ht ha hb (Std.LawfulEqOrd.eq_of_compare h))
  rw [compareFallback, comparePaintOrder_eq ht ha hb, then_of_ne_eq hdecided]

/-- **Nodes of a tree are compared as their standings are.** -/
theorem compare_eq_standing (ht : r.IsTree) (o : VisualOrder) (ha : r.Reaches a) (hb : r.Reaches b)
    (hma : a.Measured) (hmb : b.Measured) :
    o.compare a b = compare (o.standing a) (o.standing b) := by
  rw [VisualOrder.compare]
  by_cases hsame : a.same b = true
  · obtain rfl := (ht.same_iff_eq ha hb).mp hsame
    rw [if_pos hsame, Std.ReflOrd.compare_self]
  · have hne : a ≠ b := fun h ↦ hsame ((ht.same_iff_eq ha hb).mpr h)
    rw [if_neg hsame]
    have hdecided : compare (o.standing a) (o.standing b) ≠ .eq := fun h ↦
      hne (standing_inj ht o ha hb (Std.LawfulEqOrd.eq_of_compare h))
    have hthen {d : Ordering} (hd : d = compare (o.standing a) (o.standing b)) :
        d.then (compareDocumentOrder a b) = compare (o.standing a) (o.standing b) := by
      rw [hd, then_of_ne_eq hdecided]
    match o with
    | ⟨.axis, some scope, _⟩ => exact hthen (compareAxis_eq ht ha hb hma hmb scope)
    | ⟨.axis, none, _⟩ => exact hthen (compareFallback_eq ht ha hb hne)
    | ⟨.rows, _, rows⟩ => exact hthen (compareRows_eq ht ha hb hma hmb rows)
    | ⟨.fallback, _, _⟩ => exact hthen (compareFallback_eq ht ha hb hne)

/-! ## Two tiles -/

/-- A tile. -/
def Node.tile (id : String) (x : Option Float) : Node :=
  ⟨{ id, kind := .rectangle, x, y := some 8 }, []⟩

/-- A page with two tiles; where the left edge of the second one lies is not known. -/
def Document.tiles : Document :=
  .ofRoot ⟨{ id := "0:0", kind := .page }, [.tile "0:1" (some 8), .tile "0:2" none]⟩

/-- The first tile. -/
def Document.firstTile : Spot := tiles.root.child 0 (.tile "0:1" (some 8))

/-- The second tile. -/
def Document.secondTile : Spot := tiles.root.child 1 (.tile "0:2" none)

theorem Document.measured_firstTile : firstTile.Measured where
  x := by
    rintro _ ⟨rfl⟩
    decide
  y := by
    rintro _ ⟨rfl⟩
    decide

theorem Document.measured_secondTile : secondTile.Measured where
  x := nofun
  y := by
    rintro _ ⟨rfl⟩
    decide

/-! ## The order of a tree -/

private theorem orders_compare (ht : r.IsTree) (o : VisualOrder) :
    Sorting.Orders (fun a b ↦ o.compare a b == .lt) fun s ↦ r.Reaches s ∧ s.Measured :=
  Sorting.orders_of_key o.standing fun ⟨ha, hma⟩ ⟨hb, hmb⟩ ↦ by
    rw [compare_eq_standing ht o ha hb hma hmb]

private theorem compare_eq_lt_of_ne (ht : r.IsTree) (o : VisualOrder)
    (ha : r.Reaches a ∧ a.Measured)
    (hb : r.Reaches b ∧ b.Measured) (hne : a ≠ b) (h : (o.compare b a == .lt) = false) :
    o.compare a b = .lt := by
  rw [beq_eq_false_iff_ne, compare_eq_standing ht o hb.1 ha.1 hb.2 ha.2] at h
  rw [compare_eq_standing ht o ha.1 hb.1 ha.2 hb.2]
  match hcompare : compare (o.standing a) (o.standing b) with
  | .lt => rfl
  | .eq => exact absurd (standing_inj ht o ha.1 hb.1 (Std.LawfulEqOrd.eq_of_compare hcompare)) hne
  | .gt => exact absurd (Std.OrientedCmp.lt_of_gt hcompare) h

/-- What any order makes of different nodes of a tree ascends strictly, and does not depend on the
order in which they come. -/
theorem sort_spec (ht : r.IsTree) (o : VisualOrder) {spots : List Spot}
    (hspots : ∀ s ∈ spots, r.Reaches s ∧ s.Measured) (hnodup : spots.Nodup) :
    (o.sort spots).Perm spots ∧ (o.sort spots).Pairwise (fun a b ↦ o.compare a b = .lt) ∧
      ∀ others : List Spot, others.Perm spots → o.sort others = o.sort spots := by
  have ho := orders_compare ht o
  have hperm : (o.sort spots).Perm spots := sortBy_perm _ _
  have hsorted := ascending_sortBy ho hspots
  refine ⟨hperm, ?_, fun others hothers ↦ ?_⟩
  · refine (hsorted.pairwise.and (hperm.nodup_iff.mpr hnodup)).imp_of_mem ?_
    rintro a b ha hb ⟨hle, hne⟩
    exact compare_eq_lt_of_ne ht o (hsorted.fit a ha) (hsorted.fit b hb) hne hle
  · refine sortBy_eq_of_perm ho (fun {a b} ha hb hab hba ↦ ?_) hspots hothers
    by_contra hne
    exact absurd hab (by rw [compare_eq_lt_of_ne ht o ha hb hne hba]; decide)

/-- **The reading order of a tree is a strict total order**, whatever the strategy: only a node and
itself are equal, the order the other way round is the opposite, and it is transitive. So different
nodes are sorted to the one list that ascends strictly, in whatever order they come. -/
theorem VisualOrder.compare_strict_total (ht : r.IsTree) (o : VisualOrder) :
    (∀ a b, r.Reaches a → a.Measured → r.Reaches b → b.Measured →
      (o.compare a b = .eq ↔ a = b) ∧ o.compare a b = (o.compare b a).swap ∧
        ∀ c, r.Reaches c → c.Measured → ∀ d, o.compare a b = d → o.compare b c = d →
          o.compare a c = d) ∧
      ∀ spots : List Spot, (∀ s ∈ spots, r.Reaches s ∧ s.Measured) → spots.Nodup →
        (o.sort spots).Perm spots ∧ (o.sort spots).Pairwise (fun a b ↦ o.compare a b = .lt) ∧
          ∀ others : List Spot, others.Perm spots → o.sort others = o.sort spots := by
  refine ⟨fun a b ha hma hb hmb ↦ ⟨?_, ?_, fun c hc hmc d hab hbc ↦ ?_⟩, fun spots ↦ sort_spec ht o⟩
  · rw [compare_eq_standing ht o ha hb hma hmb, Std.LawfulEqCmp.compare_eq_iff_eq]
    constructor
    · exact standing_inj ht o ha hb
    · rintro rfl
      rfl
  · rw [compare_eq_standing ht o ha hb hma hmb, compare_eq_standing ht o hb ha hmb hma]
    exact Std.OrientedCmp.eq_swap
  · rw [compare_eq_standing ht o ha hb hma hmb] at hab
    rw [compare_eq_standing ht o hb hc hmb hmc] at hbc
    rw [compare_eq_standing ht o ha hc hma hmc]
    match d with
    | .lt => exact Std.TransCmp.lt_trans hab hbc
    | .eq => exact Std.TransCmp.eq_trans hab hbc
    | .gt => exact Std.TransCmp.gt_trans hab hbc

/-- For instance two tiles, sorted by rows. -/
theorem VisualOrder.compare_strict_total_tiles :
    Document.tiles.root.IsTree ∧ [Document.firstTile, Document.secondTile].Nodup ∧
      (∀ s ∈ [Document.firstTile, Document.secondTile],
        Document.tiles.root.Reaches s ∧ s.Measured) ∧
      (({ strategy := .rows } : VisualOrder).sort [Document.firstTile, Document.secondTile]).Perm
        [Document.firstTile, Document.secondTile] ∧
      (({ strategy := .rows } : VisualOrder).sort
        [Document.firstTile, Document.secondTile]).Pairwise
          (fun a b ↦ ({ strategy := .rows } : VisualOrder).compare a b = .lt) ∧
      ({ strategy := .rows } : VisualOrder).sort [Document.secondTile, Document.firstTile] =
        ({ strategy := .rows } : VisualOrder).sort [Document.firstTile, Document.secondTile] := by
  have htree : Document.tiles.root.IsTree := Document.isTree_of_links_eq rfl
  have hnodup : [Document.firstTile, Document.secondTile].Nodup := by
    have hne : Document.firstTile.place ≠ Document.secondTile.place := by decide
    simpa using fun h ↦ hne (congrArg Spot.place h)
  have hspots : ∀ s ∈ [Document.firstTile, Document.secondTile],
      Document.tiles.root.Reaches s ∧ s.Measured := by
    have hfirst : Document.tiles.root.Reaches Document.firstTile :=
      (Spot.Reaches.refl _).child List.mem_cons_self
    have hsecond : Document.tiles.root.Reaches Document.secondTile :=
      (Spot.Reaches.refl _).child (List.mem_cons_of_mem _ List.mem_cons_self)
    simpa using ⟨⟨hfirst, Document.measured_firstTile⟩, hsecond, Document.measured_secondTile⟩
  obtain ⟨hperm, hpairwise, hsame⟩ :=
    (compare_strict_total htree { strategy := .rows }).2 _ hspots hnodup
  exact ⟨htree, hnodup, hspots, hperm, hpairwise, hsame _ (List.Perm.swap ..)⟩

end SceneSearch
