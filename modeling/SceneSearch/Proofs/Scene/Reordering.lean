import Mathlib.Data.List.Perm.Basic
import SceneSearch.Proofs.Scene.Orderly
import SceneSearch.Scene.Edit
import SceneSearch.Search.Scopes
import SceneSearch.Search.Visibility

/-!
# Documents with their children in another order

The children of a node may come to be listed in another order, while everything else stays: the
trees, the parents, and which children a node has. `Document.ReorderedTo` says so of a document and
of the state that its scene has afterwards; only the root goes on to list its children as it did.

A node is then carried over to the other state by changing nothing but its scene, `Spot.into`. Up
from a node the two states look the same, so ancestors, containers and visibility are carried over
as they are. Down from a node they have the same nodes, in another order: this is shown by induction
from below, and is all that becomes of a walk.
-/

namespace SceneSearch

/-! ## Nodes of another state -/

namespace Spot

/-- The node with its scene in another state. -/
def into (scene : Scene) (s : Spot) : Spot := { s with scene }

variable {scene : Scene} {s t p : Spot} {spots : List Spot}

@[simp] theorem scene_into : (s.into scene).scene = scene := rfl

@[simp] theorem place_into : (s.into scene).place = s.place := rfl

@[simp] theorem kind_into : (s.into scene).kind = s.kind := rfl

@[simp] theorem same_into : (s.into scene).same (t.into scene) = s.same t := rfl

private theorem eq_of_into_eq (hscene : s.scene = t.scene) (h : s.into scene = t.into scene) :
    s = t := by
  obtain ⟨_, tree, above, node⟩ := s
  obtain ⟨_, tree', above', node'⟩ := t
  cases h
  cases hscene
  rfl

private theorem descend_into (s : Spot) (a : List Nat) :
    (s.into scene).descend a = (s.descend a).map (into scene) := by
  induction a generalizing s with
  | nil => rfl
  | cons i rest ih =>
    have hnode : (s.into scene).node = s.node := rfl
    rw [descend, descend, hnode]
    cases s.node.children[i]? with
    | none => rfl
    | some node => exact ih (s.child i node)

private theorem scene_of_parent? (h : s.parent? = some p) : p.scene = s.scene := by
  rw [parent?] at h
  split at h
  · rw [ownParent?] at h
    split at h
    · cases h
    · cases h
      rfl
  · cases h
  · exact (Scene.scene_and_place_of_at? h).1

theorem Stands.filterMap_at?_children (hs : s.Stands) :
    (s.children.map place).filterMap s.scene.at? = s.children := by
  have hfound : ∀ c ∈ s.children, (s.scene.at? ∘ place) c = some c := by
    intro c hc
    obtain ⟨hstands, hscene⟩ := hs.of_mem_children hc
    rw [Function.comp_apply, ← hscene]
    exact hstands
  rw [List.filterMap_map, List.filterMap_congr hfound, List.filterMap_some]

end Spot

namespace Scene

open Spot

variable {scene old : Scene} {s : Spot}

/-- The other scene has the same trees. -/
structure SameTrees (scene old : Scene) : Prop where
  /-- The tree of the document is the same. -/
  root : scene.root = old.root
  /-- The trees beside it are. -/
  others : scene.others = old.others

namespace SameTrees

theorem at?_eq (h : scene.SameTrees old) (p : Place) :
    scene.at? p = (old.at? p).map (into scene) := by
  have htree : scene.tree? p.tree = old.tree? p.tree := by
    rw [tree?.eq_def, tree?.eq_def, h.root, h.others]
  rw [at?, at?, htree]
  cases old.tree? p.tree with
  | none => rfl
  | some node => exact descend_into ⟨old, p.tree, [], node⟩ p.address

theorem filterMap_at? (h : scene.SameTrees old) (places : List Place) :
    places.filterMap scene.at? = (places.filterMap old.at?).map (into scene) := by
  have hat : scene.at? = fun p ↦ (old.at? p).map (into scene) := funext h.at?_eq
  rw [hat, List.map_filterMap]

theorem stands_into (h : scene.SameTrees old) (hs : s.Stands) (hscene : s.scene = old) :
    (s.into scene).Stands := by
  rw [Stands, hscene] at hs
  rw [Stands, scene_into, place_into, h.at?_eq, hs]
  rfl

theorem within_eq (h : scene.SameTrees old) (hs : s.Stands) (hscene : s.scene = old) :
    s.within scene = s.into scene := by
  have hfound : scene.at? s.place = some (s.into scene) := h.stands_into hs hscene
  rw [within, hfound, Option.getD_some]

theorem filterMap_at?_children (h : scene.SameTrees old) (hs : s.Stands) (hscene : s.scene = old) :
    (s.children.map place).filterMap scene.at? = s.children.map (into scene) := by
  have hfound := hs.filterMap_at?_children
  rw [hscene] at hfound
  rw [h.filterMap_at?, hfound]

private theorem children_into (h : scene.SameTrees old) (hscene : s.scene = old)
    (hlisted : (s.into scene).listed? = s.listed?) :
    (s.into scene).children = s.children.map (into scene) := by
  rw [children, children, hlisted, hscene]
  cases s.listed? with
  | none =>
    rw [ownChildren, ownChildren, List.mapIdx_eq_zipIdx_map, List.mapIdx_eq_zipIdx_map,
      List.map_map]
    rfl
  | some places => exact h.filterMap_at? places

end SameTrees

end Scene

namespace Document.Labelled

open Spot

variable {d : Document} {scene : Scene} {s t : Spot} {spots : List Spot}

theorem scene_eq (hd : d.Labelled) (hs : d.Has s) : s.scene = d.scene :=
  (hd.tree.stands_and_scene hs).2

theorem nodup_map_into (hd : d.Labelled) (hspots : ∀ s ∈ spots, d.Has s) (hnodup : spots.Nodup) :
    (spots.map (into scene)).Nodup :=
  hnodup.map_on fun s hs t ht ↦
    eq_of_into_eq ((hd.scene_eq (hspots s hs)).trans (hd.scene_eq (hspots t ht)).symm)

end Document.Labelled

/-! ## Reordered documents -/

/-- The scene is that of the document with the children of its nodes in another order; the root
lists its own ones as it did. -/
structure Document.ReorderedTo (d : Document) (scene : Scene) : Prop where
  /-- The trees are the same. -/
  trees : scene.SameTrees d.scene
  /-- Every node has the parent that it had. -/
  parents : scene.links.parents = d.scene.links.parents
  /-- The root lists the same nodes in the same order. -/
  top : (d.root.within scene).children.map Spot.place = d.root.children.map Spot.place
  /-- Every node lists the nodes that it did, each as often. -/
  children : ∀ s, d.Has s →
    ((s.within scene).children.map Spot.place).Perm (s.children.map Spot.place)

namespace Document.ReorderedTo

open Spot

variable {d : Document} {scene : Scene} {s t : Spot} {spots above : List Spot}
  {prune : Spot → Bool}

theorem stands_into (h : d.ReorderedTo scene) (hd : d.Labelled) (hs : d.Has s) :
    (s.into scene).Stands :=
  h.trees.stands_into (hd.tree.stands_and_scene hs).1 (hd.scene_eq hs)

theorem within_eq (h : d.ReorderedTo scene) (hd : d.Labelled) (hs : d.Has s) :
    s.within scene = s.into scene :=
  h.trees.within_eq (hd.tree.stands_and_scene hs).1 (hd.scene_eq hs)

theorem map_within_eq (h : d.ReorderedTo scene) (hd : d.Labelled) (hspots : ∀ s ∈ spots, d.Has s) :
    spots.map (within scene) = spots.map (into scene) :=
  List.map_congr_left fun s hs ↦ h.within_eq hd (hspots s hs)

theorem root_eq (h : d.ReorderedTo scene) :
    ({ d with scene } : Document).root = d.root.into scene := by
  rw [Document.root, h.trees.root]
  rfl

/-! ## Neighbours -/

theorem parent?_into (h : d.ReorderedTo scene) (hscene : s.scene = d.scene) :
    (s.into scene).parent? = s.parent?.map (into scene) := by
  have hgiven : (s.into scene).given? = s.given? := by
    rw [given?, given?, scene_into, h.parents, hscene]
    rfl
  rw [parent?, parent?, hgiven, hscene]
  cases s.given? with
  | none =>
    obtain ⟨_, tree, above, node⟩ := s
    cases above <;> rfl
  | some parent =>
    cases parent with
    | none => rfl
    | some p => exact h.trees.at?_eq p

theorem children_perm (h : d.ReorderedTo scene) (hd : d.Labelled) (hs : d.Has s) :
    (s.into scene).children.Perm (s.children.map (into scene)) := by
  have hplaces := h.children s hs
  rw [h.within_eq hd hs] at hplaces
  rw [← (h.stands_into hd hs).filterMap_at?_children,
    ← h.trees.filterMap_at?_children (hd.tree.stands_and_scene hs).1 (hd.scene_eq hs)]
  exact hplaces.filterMap _

theorem children_root (h : d.ReorderedTo scene) (hd : d.Labelled) :
    (d.root.into scene).children = d.root.children.map (into scene) := by
  have hplaces := h.top
  rw [h.within_eq hd d.has_root] at hplaces
  rw [← (h.stands_into hd d.has_root).filterMap_at?_children,
    ← h.trees.filterMap_at?_children hd.tree.stands rfl]
  exact congrArg (List.filterMap scene.at?) hplaces

theorem mem_children_into (h : d.ReorderedTo scene) (hd : d.Labelled) (hs : d.Has s) :
    t ∈ (s.into scene).children ↔ ∃ c ∈ s.children, c.into scene = t := by
  rw [(h.children_perm hd hs).mem_iff, List.mem_map]

/-! ## The tree -/

theorem has_into (h : d.ReorderedTo scene) (hd : d.Labelled) (hs : d.Has s) :
    ({ d with scene } : Document).Has (s.into scene) := by
  rw [Has, h.root_eq]
  induction hs with
  | refl => exact .refl _
  | tail hp hc ih => exact ih.child ((h.mem_children_into hd hp).mpr ⟨_, hc, rfl⟩)

private theorem exists_of_has (h : d.ReorderedTo scene) (hd : d.Labelled)
    (ht : ({ d with scene } : Document).Has t) : ∃ s, d.Has s ∧ s.into scene = t := by
  rw [Has, h.root_eq] at ht
  induction ht with
  | refl => exact ⟨d.root, d.has_root, rfl⟩
  | tail _ hc ih =>
    obtain ⟨p, hp, rfl⟩ := ih
    obtain ⟨c, hcp, rfl⟩ := (h.mem_children_into hd hp).mp hc
    exact ⟨c, Reaches.child hp hcp, rfl⟩

/-- **A reordered document is labelled as it was.** -/
theorem labelled (h : d.ReorderedTo scene) (hd : d.Labelled) :
    ({ d with scene } : Document).Labelled where
  tree := by
    refine ⟨rfl, ?_, fun {s' c'} hs' hc' ↦ ?_, fun {s'} hs' ↦ ?_⟩
    · rw [h.root_eq, h.parent?_into rfl, hd.tree.parent?_root]
      rfl
    · obtain ⟨s, hs, rfl⟩ := h.exists_of_has hd hs'
      obtain ⟨c, hc, rfl⟩ := (h.mem_children_into hd hs).mp hc'
      rw [h.parent?_into (hd.scene_eq (Reaches.child hs hc)), hd.tree.parent?_child hs hc]
      rfl
    · obtain ⟨s, hs, rfl⟩ := h.exists_of_has hd hs'
      rw [(h.children_perm hd hs).nodup_iff]
      exact hd.nodup_map_into (fun c hc ↦ Reaches.child hs hc) (hd.tree.nodup_children hs)
  eq_of_id := by
    intro s' t' hs' ht' hid
    obtain ⟨s, hs, rfl⟩ := h.exists_of_has hd hs'
    obtain ⟨t, ht, rfl⟩ := h.exists_of_has hd ht'
    rw [hd.eq_of_id hs ht hid]

/-! ## Up from a node -/

private theorem wayUp_into (h : d.ReorderedTo scene) (hway : WayUp s above)
    (hscene : s.scene = d.scene) :
    WayUp (s.into scene) (above.map (into scene)) := by
  induction hway with
  | root hnone =>
    refine .root ?_
    rw [h.parent?_into hscene, hnone]
    rfl
  | step hp _ ih =>
    refine .step ?_ (ih ((scene_of_parent? hp).trans hscene))
    rw [h.parent?_into hscene, hp]
    rfl

/-- **The way up is the same.** -/
theorem ancestors_into (h : d.ReorderedTo scene) (hd : d.Labelled) (hs : d.Has s) :
    (s.into scene).ancestors = s.ancestors.map (into scene) :=
  ((h.labelled hd).tree.wayUp_ancestors (h.has_into hd hs)).unique
    (h.wayUp_into (hd.tree.wayUp_ancestors hs) (hd.scene_eq hs))

theorem chain_into (h : d.ReorderedTo scene) (hd : d.Labelled) (hs : d.Has s) :
    (s.into scene).chain = s.chain.map (into scene) := by
  rw [chain, chain, h.ancestors_into hd hs]
  rfl

theorem anchor?_into (h : d.ReorderedTo scene) (hd : d.Labelled) (hs : d.Has s) :
    (s.into scene).anchor? = s.anchor?.map (into scene) := by
  rw [anchor?, anchor?, h.chain_into hd hs, List.takeWhile_map, List.find?_map]
  rfl

theorem isBelow_into (h : d.ReorderedTo scene) (hd : d.Labelled) (hs : d.Has s) (t : Spot) :
    (s.into scene).isBelow (t.into scene) = s.isBelow t := by
  rw [isBelow, isBelow, h.ancestors_into hd hs, List.any_map]
  rfl

private theorem belowScope_into (h : d.ReorderedTo scene) (hd : d.Labelled) (hs : d.Has s)
    (scope : Option Spot) :
    (s.into scene).belowScope (scope.map (into scene)) =
      (s.belowScope scope).map (into scene) := by
  rw [belowScope, belowScope, h.chain_into hd hs, List.takeWhile_map]
  cases scope <;> rfl

theorem isEligible_into (h : d.ReorderedTo scene) (hd : d.Labelled) (hs : d.Has s)
    (mode : VisibilityMode) (scope : Option Spot) :
    (s.into scene).isEligible mode (scope.map (into scene)) = s.isEligible mode scope := by
  cases mode with
  | all => rfl
  | hiddenOnly => rfl
  | default =>
    rw [isEligible, isEligible, isEffectivelyVisible, isEffectivelyVisible,
      h.belowScope_into hd hs, List.all_map]
    rfl

/-! ## Down from a node -/

theorem shownChildren_perm (h : d.ReorderedTo scene) (hd : d.Labelled) (hs : d.Has s)
    (shown : Exposure) :
    ((s.into scene).shownChildren shown).Perm ((s.shownChildren shown).map (into scene)) := by
  have hfiltered := (h.children_perm hd hs).filter fun c ↦ shown s.layer c.layer
  rw [List.filter_map] at hfiltered
  exact hfiltered

/-- **A walk comes to the same nodes.** -/
theorem descendants_perm (h : d.ReorderedTo scene) (hd : d.Labelled) (hs : d.Has s)
    (shown : Exposure) (hprune : ∀ t, prune (t.into scene) = prune t) :
    ((s.into scene).descendants shown prune).Perm
      ((s.descendants shown prune).map (into scene)) := by
  have hd' := h.labelled hd
  refine hd.tree.induction_below (fun s hs ih ↦ ?_) hs
  have hchild : ∀ {c}, c ∈ s.shownChildren shown → d.Has c := fun hc ↦
    Reaches.child hs (mem_children_of_mem_shownChildren hc)
  have hpart : ∀ c ∈ s.shownChildren shown,
      ((c.into scene).part shown prune).Perm ((c.part shown prune).map (into scene)) := by
    intro c hc
    rw [hd'.tree.part_eq (h.has_into hd (hchild hc)), hd.tree.part_eq (hchild hc), hprune]
    split
    · exact .nil
    · exact (ih c (mem_children_of_mem_shownChildren hc)).cons _
  rw [hd'.tree.descendants_eq (h.has_into hd hs), hd.tree.descendants_eq hs, List.map_flatMap]
  refine ((h.shownChildren_perm hd hs shown).flatMap_right _).trans ?_
  rw [List.flatMap_map]
  exact List.Perm.flatMap_left _ hpart

end Document.ReorderedTo

/-! ## Changing one list -/

/-- A document is reordered by listing the children of a node below its root in another order. -/
theorem Document.Labelled.reorderedTo_relist {d : Document} {s : Spot} (hd : d.Labelled)
    (hs : d.Has s) (hne : s ≠ d.root) {listed : List Place}
    (hperm : listed.Perm (s.children.map Spot.place)) :
    d.ReorderedTo (d.scene.relist s.place listed) := by
  have htrees : (d.scene.relist s.place listed).SameTrees d.scene := ⟨rfl, rfl⟩
  -- every other node lists what it did
  have hkept : ∀ t, d.Has t → t ≠ s →
      (t.within (d.scene.relist s.place listed)).children.map Spot.place =
        t.children.map Spot.place := by
    intro t ht hts
    obtain ⟨hstands, hscene⟩ := hd.tree.stands_and_scene ht
    have hplace : s.place ≠ t.place := fun heq ↦ hts (hd.tree.eq_of_place hs ht heq).symm
    have hlisted : (t.into (d.scene.relist s.place listed)).listed? = t.listed? := by
      rw [Spot.listed?, Spot.listed?, Spot.scene_into, Spot.place_into, Scene.relist,
        List.find?_cons_of_neg (by simpa using hplace), hscene, ← List.head?_filter,
        ← List.head?_filter, List.filter_filter]
      refine congrArg (fun found ↦ (List.head? found).map Prod.snd) (List.filter_congr fun e _ ↦ ?_)
      by_cases he : e.1 = t.place
      · simp [he, Ne.symm hplace]
      · simp [he]
    rw [htrees.within_eq hstands hscene, htrees.children_into hscene hlisted, List.map_map]
    rfl
  refine ⟨htrees, rfl, hkept _ d.has_root (Ne.symm hne), fun t ht ↦ ?_⟩
  by_cases hts : t = s
  · subst hts
    obtain ⟨hstands, hscene⟩ := hd.tree.stands_and_scene ht
    rw [htrees.within_eq hstands hscene, Spot.children, Scene.listed?_relist rfl]
    have hfound := hperm.filterMap (d.scene.relist t.place listed).at?
    rw [htrees.filterMap_at?_children hstands hscene] at hfound
    have hplaces := hfound.map Spot.place
    rw [List.map_map] at hplaces
    exact hplaces
  · rw [hkept t ht hts]

end SceneSearch
