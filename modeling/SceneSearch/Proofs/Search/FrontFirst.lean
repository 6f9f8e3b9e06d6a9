import SceneSearch.Proofs.Scene.Descent
import SceneSearch.Proofs.Search.ReadingOrder

/-!
# The frontmost first

Where the position of some candidate is not known, candidates are read from front to back: a node
before its children, and of the children the last one first, for it is painted over the others. The
comparison of two nodes never walks through the tree for that. It only looks at the ways down to the
two, and lets the later child go first where they part. These ways ascend in that order along the
walk from the root, `pairwise_frontFirst`, and the walk comes by every node once. So candidates are
sorted to the part of the walk that they are.
-/

namespace SceneSearch

variable {r s t c d : Spot}

/-! ## The walk -/

/-- The nodes at and below a node down to a depth, from front to back. -/
def Spot.frontFirstTo : (depth : Nat) → Spot → List Spot
  | 0, _ => []
  | depth + 1, s => s :: s.children.reverse.flatMap (frontFirstTo depth)

/-- The nodes at and below a node from front to back. No way down has more nodes than the scene. -/
def Spot.frontFirst (s : Spot) : List Spot := s.frontFirstTo s.scene.size

namespace Spot.IsTree

theorem length_ancestors_of_mem_children (ht : r.IsTree) (hs : r.Reaches s) (hc : c ∈ s.children) :
    c.ancestors.length = s.ancestors.length + 1 := by
  rw [ht.ancestors_of_mem_children hs hc, List.length_cons]

private theorem frontFirstTo_eq (ht : r.IsTree) (hs : r.Reaches s) :
    ∀ m n : Nat, r.scene.size ≤ s.ancestors.length + m → r.scene.size ≤ s.ancestors.length + n →
      s.frontFirstTo m = s.frontFirstTo n := by
  refine ht.induction_below (fun s hs ih ↦ ?_) hs
  intro m n hm hn
  have hlt := ht.length_ancestors_lt hs
  obtain ⟨m, rfl⟩ : ∃ k, m = k + 1 := ⟨m - 1, by omega⟩
  obtain ⟨n, rfl⟩ : ∃ k, n = k + 1 := ⟨n - 1, by omega⟩
  rw [frontFirstTo, frontFirstTo]
  congr 1
  refine List.flatMap_congr fun c hc ↦ ?_
  have hchild := List.mem_reverse.mp hc
  have hlength := ht.length_ancestors_of_mem_children hs hchild
  exact ih c hchild m n (by omega) (by omega)

/-- **The walk is a recursion**: a node, and then its children from the last one to the first. -/
theorem frontFirst_eq (ht : r.IsTree) (hs : r.Reaches s) :
    s.frontFirst = s :: s.children.reverse.flatMap frontFirst := by
  have hscene : ∀ {t}, r.Reaches t → t.scene = r.scene := fun h ↦ (ht.stands_and_scene h).2
  have hlt := ht.length_ancestors_lt hs
  obtain ⟨k, hk⟩ : ∃ k, r.scene.size = k + 1 := ⟨r.scene.size - 1, by omega⟩
  rw [frontFirst, hscene hs, hk, frontFirstTo]
  congr 1
  refine List.flatMap_congr fun c hc ↦ ?_
  have hchild := List.mem_reverse.mp hc
  have hlength := ht.length_ancestors_of_mem_children hs hchild
  rw [frontFirst, hscene (hs.child hchild)]
  exact ht.frontFirstTo_eq (hs.child hchild) _ _ (by omega) (by omega)

theorem mem_frontFirst_iff (ht : r.IsTree) (hs : r.Reaches s) : t ∈ s.frontFirst ↔ s.Reaches t := by
  refine ht.induction_below (fun s hs ih ↦ ?_) hs
  rw [ht.frontFirst_eq hs, List.mem_cons, reaches_iff_eq_or_holds, holds_iff_exists_child,
    List.mem_flatMap]
  refine or_congr_right (exists_congr fun c ↦ ?_)
  rw [List.mem_reverse]
  exact and_congr_right fun hc ↦ ih c hc

/-! ## The ways down -/

theorem exists_frontness_of_reaches_child (ht : r.IsTree) (hs : r.Reaches s) (hc : c ∈ s.children)
    (hct : c.Reaches t) : ∃ way, t.frontness = s.frontness ++ -(c.positionIn s : Int) :: way := by
  obtain ⟨way, hway⟩ := ht.exists_address_of_reaches_child hs hc hct
  refine ⟨way.map fun i : Nat ↦ -(i : Int), ?_⟩
  rw [frontness, hway, List.map_append]
  rfl

private theorem compare_frontness_of_holds (ht : r.IsTree) (hs : r.Reaches s) (hc : c ∈ s.children)
    (hct : c.Reaches t) : compare s.frontness t.frontness = .lt := by
  obtain ⟨way, hway⟩ := ht.exists_frontness_of_reaches_child hs hc hct
  rw [hway]
  conv_lhs => rw [← List.append_nil s.frontness]
  rw [List.append_assoc, compare_append_left]
  rfl

/-- What is at and below a later child is before what is at and below an earlier one. -/
theorem compare_frontness_of_positionIn_lt {a b : Spot} (ht : r.IsTree) (hs : r.Reaches s)
    (hc : c ∈ s.children) (hd : d ∈ s.children) (hlt : d.positionIn s < c.positionIn s)
    (hca : c.Reaches a) (hdb : d.Reaches b) : compare a.frontness b.frontness = .lt := by
  obtain ⟨way, hway⟩ := ht.exists_frontness_of_reaches_child hs hc hca
  obtain ⟨way', hway'⟩ := ht.exists_frontness_of_reaches_child hs hd hdb
  have hdecided : compare (-(c.positionIn s : Int)) (-(d.positionIn s : Int)) = .lt :=
    compare_lt_iff_lt.mpr (by omega)
  rw [hway, hway', compare_append_left, List.compare_cons_cons, hdecided]
  rfl

/-- **Along the walk the ways down ascend.** -/
theorem pairwise_frontFirst (ht : r.IsTree) (hs : r.Reaches s) :
    s.frontFirst.Pairwise fun a b ↦ compare a.frontness b.frontness = .lt := by
  refine ht.induction_below (fun s hs ih ↦ ?_) hs
  have hreach : ∀ {c t}, c ∈ s.children → t ∈ c.frontFirst → c.Reaches t := fun hc hmem ↦
    (ht.mem_frontFirst_iff (hs.child hc)).mp hmem
  rw [ht.frontFirst_eq hs]
  refine List.pairwise_cons.mpr ⟨fun t hmem ↦ ?_, List.pairwise_flatMap.mpr ⟨fun c hc ↦ ?_, ?_⟩⟩
  · obtain ⟨c, hc, hct⟩ := List.mem_flatMap.mp hmem
    have hchild := List.mem_reverse.mp hc
    exact ht.compare_frontness_of_holds hs hchild (hreach hchild hct)
  · exact ih c (List.mem_reverse.mp hc)
  · refine (List.pairwise_reverse.mpr (ht.pairwise_positionIn hs)).imp_of_mem ?_
    intro c d hc hd hlt a ha b hb
    have hc := List.mem_reverse.mp hc
    have hd := List.mem_reverse.mp hd
    exact ht.compare_frontness_of_positionIn_lt hs hc hd hlt (hreach hc ha) (hreach hd hb)

theorem nodup_frontFirst (ht : r.IsTree) (hs : r.Reaches s) : s.frontFirst.Nodup := by
  refine (ht.pairwise_frontFirst hs).imp fun {a b} hlt heq ↦ ?_
  rw [heq, Std.ReflOrd.compare_self] at hlt
  cases hlt

end Spot.IsTree

/-! ## Candidates without a position -/

open VisualOrder hiding compare

variable {a b : Spot} {spots : List Spot}

private theorem compare_fallback (ht : r.IsTree) (ha : r.Reaches a) (hb : r.Reaches b) :
    ({ strategy := .fallback } : VisualOrder).compare a b = compare a.frontness b.frontness := by
  rw [VisualOrder.compare]
  by_cases hsame : a.same b = true
  · obtain rfl := (ht.same_iff_eq ha hb).mp hsame
    rw [if_pos hsame, Std.ReflOrd.compare_self]
  · have hne : a ≠ b := fun h ↦ hsame ((ht.same_iff_eq ha hb).mpr h)
    have hdecided : compare a.frontness b.frontness ≠ .eq := fun h ↦
      hne (frontness_inj ht ha hb (Std.LawfulEqOrd.eq_of_compare h))
    rw [if_neg hsame]
    change (compareFallback a b).then (compareDocumentOrder a b) = _
    rw [compareFallback_eq ht ha hb hne, then_of_ne_eq hdecided]

/-- Nodes in the order in which the walk from a root comes by them. -/
def Spot.alongFrontFirst (r : Spot) (spots : List Spot) : List Spot :=
  r.frontFirst.filter fun s ↦ spots.any s.same

theorem alongFrontFirst_perm (ht : r.IsTree) (hspots : ∀ s ∈ spots, r.Reaches s)
    (hnodup : spots.Nodup) : (r.alongFrontFirst spots).Perm spots := by
  have hnodup' : (r.alongFrontFirst spots).Nodup := (ht.nodup_frontFirst (.refl r)).filter _
  refine (List.perm_ext_iff_of_nodup hnodup' hnodup).mpr fun s ↦ ?_
  rw [Spot.alongFrontFirst, List.mem_filter, ht.mem_frontFirst_iff (.refl r), List.any_eq_true]
  constructor
  · rintro ⟨hs, t, hmem, hsame⟩
    obtain rfl := (ht.same_iff_eq hs (hspots t hmem)).mp hsame
    exact hmem
  · exact fun hmem ↦ ⟨hspots s hmem, s, hmem, Spot.same_iff.mpr rfl⟩

private theorem sort_fallback (ht : r.IsTree) (hspots : ∀ s ∈ spots, r.Reaches s)
    (hnodup : spots.Nodup) :
    ({ strategy := .fallback } : VisualOrder).sort spots = r.alongFrontFirst spots := by
  let o : VisualOrder := { strategy := .fallback }
  have ho : Sorting.Orders (fun a b ↦ o.compare a b == .lt) r.Reaches :=
    Sorting.orders_of_key Spot.frontness fun ha hb ↦ by rw [compare_fallback ht ha hb]
  have hsorted := ascending_sortBy ho hspots
  have hperm : (o.sort spots).Perm (r.alongFrontFirst spots) :=
    (sortBy_perm _ _).trans (alongFrontFirst_perm ht hspots hnodup).symm
  have hwalk : (r.alongFrontFirst spots).Pairwise fun a b ↦
      compare b.frontness a.frontness ≠ .lt :=
    ((ht.pairwise_frontFirst (.refl r)).sublist List.filter_sublist).imp fun hlt ↦
      Std.OrientedCmp.not_lt_of_lt hlt
  have hlist : (o.sort spots).Pairwise fun a b ↦ compare b.frontness a.frontness ≠ .lt := by
    refine hsorted.pairwise.imp_of_mem fun ha hb hle ↦ ?_
    rwa [compare_fallback ht (hsorted.fit _ hb) (hsorted.fit _ ha), beq_eq_false_iff_ne] at hle
  refine hperm.eq_of_pairwise (fun a b ha hb hab hba ↦ ?_) hlist hwalk
  have heq : compare a.frontness b.frontness = .eq := by
    match hcompare : compare a.frontness b.frontness with
    | .lt => exact absurd hcompare hba
    | .eq => rfl
    | .gt => exact absurd (Std.OrientedCmp.lt_of_gt hcompare) hab
  exact frontness_inj ht (hsorted.fit a ha) (hsorted.fit b (hperm.mem_iff.mpr hb))
    (Std.LawfulEqOrd.eq_of_compare heq)

/-- **Without positions nodes are read from front to back**: if the position of one of some
different nodes of a tree is not known, then the nodes are sorted, whatever the scope, in the order
in which the walk from the root comes by them. The walk visits a node before its children, and of
those the last one first; so it comes by every node of the tree, and once. -/
theorem sortVisually_eq_alongFrontFirst (ht : r.IsTree) (hspots : ∀ s ∈ spots, r.Reaches s)
    (hnodup : spots.Nodup) (hunknown : ∃ s ∈ spots, s.layer.hasGeometry = false)
    (scope : Option Spot) :
    sortVisually spots scope = .ok (r.alongFrontFirst spots) ∧
      (r.alongFrontFirst spots).Perm spots ∧
      (r.alongFrontFirst spots).Sublist r.frontFirst ∧
      (∀ s, r.Reaches s → s.frontFirst = s :: s.children.reverse.flatMap Spot.frontFirst) ∧
      r.frontFirst.Nodup ∧ ∀ s, s ∈ r.frontFirst ↔ r.Reaches s := by
  refine ⟨?_, alongFrontFirst_perm ht hspots hnodup, List.filter_sublist,
    fun s hs ↦ ht.frontFirst_eq hs, ht.nodup_frontFirst (.refl r),
    fun s ↦ ht.mem_frontFirst_iff (.refl r)⟩
  have hsome : (!spots.all (·.layer.hasGeometry)) = true := by
    simpa using hunknown
  rw [sortVisually, forCandidates, if_pos hsome]
  exact congrArg Except.ok (sort_fallback ht hspots hnodup)

/-- For instance two tiles: where the second one lies is not known, and it is read first. -/
theorem sortVisually_eq_alongFrontFirst_tiles :
    Document.tiles.root.IsTree ∧
      (∀ s ∈ [Document.firstTile, Document.secondTile], Document.tiles.root.Reaches s) ∧
      [Document.firstTile, Document.secondTile].Nodup ∧
      (∃ s ∈ [Document.firstTile, Document.secondTile], s.layer.hasGeometry = false) ∧
      sortVisually [Document.firstTile, Document.secondTile] (some Document.tiles.root) =
        .ok [Document.secondTile, Document.firstTile] := by
  have htree : Document.tiles.root.IsTree := Document.isTree_of_links_eq rfl
  have hspots : ∀ s ∈ [Document.firstTile, Document.secondTile],
      Document.tiles.root.Reaches s := by
    have hfirst : Document.tiles.root.Reaches Document.firstTile :=
      (Spot.Reaches.refl _).child List.mem_cons_self
    have hsecond : Document.tiles.root.Reaches Document.secondTile :=
      (Spot.Reaches.refl _).child (List.mem_cons_of_mem _ List.mem_cons_self)
    simpa using ⟨hfirst, hsecond⟩
  have hnodup : [Document.firstTile, Document.secondTile].Nodup := by
    have hne : Document.firstTile.place ≠ Document.secondTile.place := by decide
    simpa using fun h ↦ hne (congrArg Spot.place h)
  have hunknown : ∃ s ∈ [Document.firstTile, Document.secondTile], s.layer.hasGeometry = false :=
    ⟨Document.secondTile, by simp, rfl⟩
  exact ⟨htree, hspots, hnodup, hunknown,
    (sortVisually_eq_alongFrontFirst htree hspots hnodup hunknown _).1⟩

end SceneSearch
