import Mathlib.Data.List.Nodup
import Mathlib.Logic.Relation
import SceneSearch.Scene.Document
import SceneSearch.Scene.Path

/-!
# Trees in a scene

Links are changed one by one, so what is below a node may be no tree at all: a node may be listed
twice, or have another parent than the node that lists it. `Spot.IsTree` says that neither happens
at and below a node that nothing is above. Only the links as they are now count: how the trees were
loaded, and which links were changed on the way, does not matter.

In a tree the way up from a node is the list of the nodes that hold it. Two facts carry everything
else. The way up is short, since its nodes are different nodes of the scene, so `ancestors` comes to
its end; and for the same reason what is below a node is finite, so a statement on all nodes of a
tree may be proved from the children of a node to the node.
-/

namespace SceneSearch

namespace Spot

/-! ## Nodes that stand where their scene has them -/

/-- The node stands where its scene has it. -/
def Stands (s : Spot) : Prop := s.scene.at? s.place = some s

theorem descend_append (s : Spot) (a b : List Nat) :
    s.descend (a ++ b) = (s.descend a).bind fun t ↦ t.descend b := by
  induction a generalizing s with
  | nil => rfl
  | cons i rest ih =>
    simp only [List.cons_append, descend]
    cases s.node.children[i]? with
    | none => rfl
    | some n => exact ih (s.child i n)

private theorem scene_and_place_of_descend {s t : Spot} {a : List Nat} (h : s.descend a = some t) :
    t.scene = s.scene ∧ t.place = ⟨s.tree, s.place.address ++ a⟩ := by
  induction a generalizing s with
  | nil =>
    obtain rfl : s = t := Option.some.inj h
    simp [place]
  | cons i rest ih =>
    rw [descend] at h
    split at h
    · cases h
    · obtain ⟨hscene, hplace⟩ := ih h
      rw [scene_child] at hscene
      rw [place_child, List.append_assoc] at hplace
      exact ⟨hscene, hplace⟩

end Spot

namespace Scene

theorem at?_append (scene : Scene) (tree : Nat) (a b : List Nat) :
    scene.at? ⟨tree, a ++ b⟩ = (scene.at? ⟨tree, a⟩).bind fun s ↦ s.descend b := by
  simp only [at?]
  cases scene.tree? tree with
  | none => rfl
  | some node => exact Spot.descend_append _ a b

theorem scene_and_place_of_at? {scene : Scene} {p : Place} {s : Spot}
    (h : scene.at? p = some s) : s.scene = scene ∧ s.place = p := by
  rw [at?] at h
  split at h
  · cases h
  · obtain ⟨hscene, hplace⟩ := Spot.scene_and_place_of_descend h
    exact ⟨hscene, hplace⟩

private theorem stands_of_at? {scene : Scene} {p : Place} {s : Spot} (h : scene.at? p = some s) :
    s.Stands := by
  obtain ⟨hscene, hplace⟩ := scene_and_place_of_at? h
  rw [Spot.Stands, hscene, hplace]
  exact h

end Scene

namespace Spot

theorem Stands.eq_of_place {a b : Spot} (ha : a.Stands) (hb : b.Stands) (hscene : a.scene = b.scene)
    (hplace : a.place = b.place) : a = b := by
  rw [Stands, hscene, hplace] at ha
  exact Option.some.inj (ha.symm.trans hb)

theorem Stands.of_mem_children {s c : Spot} (hs : s.Stands) (hc : c ∈ s.children) :
    c.Stands ∧ c.scene = s.scene := by
  rw [children] at hc
  split at hc
  · obtain ⟨i, hi, rfl⟩ := List.mem_mapIdx.mp hc
    refine ⟨?_, rfl⟩
    have habove : s.scene.at? ⟨s.tree, s.place.address⟩ = some s := hs
    rw [Stands, scene_child, place_child, Scene.at?_append, habove]
    simp [descend, List.getElem?_eq_getElem hi]
  · obtain ⟨p, -, hp⟩ := List.mem_filterMap.mp hc
    exact ⟨Scene.stands_of_at? hp, (Scene.scene_and_place_of_at? hp).1⟩

/-! ## At and below a node -/

/-- `t` is at or below `s`. -/
def Reaches : Spot → Spot → Prop := Relation.ReflTransGen fun s c ↦ c ∈ s.children

/-- `t` is strictly below `s`. -/
def Holds : Spot → Spot → Prop := Relation.TransGen fun s c ↦ c ∈ s.children

theorem Reaches.refl (s : Spot) : s.Reaches s := Relation.ReflTransGen.refl

theorem Reaches.trans {a b c : Spot} (hab : a.Reaches b) (hbc : b.Reaches c) : a.Reaches c :=
  Relation.ReflTransGen.trans hab hbc

theorem Reaches.child {s t c : Spot} (h : s.Reaches t) (hc : c ∈ t.children) : s.Reaches c :=
  Relation.ReflTransGen.tail h hc

theorem Holds.reaches {s t : Spot} (h : s.Holds t) : s.Reaches t :=
  Relation.TransGen.to_reflTransGen h

theorem holds_iff_exists_child {s t : Spot} : s.Holds t ↔ ∃ c ∈ s.children, c.Reaches t :=
  Relation.TransGen.head'_iff

/-- What is strictly below a node is the child of a node that is at or below it. -/
theorem holds_iff_exists_parent {s t : Spot} : s.Holds t ↔ ∃ p, s.Reaches p ∧ t ∈ p.children :=
  Relation.TransGen.tail'_iff

theorem reaches_iff_eq_or_holds {s t : Spot} : s.Reaches t ↔ t = s ∨ s.Holds t :=
  Relation.reflTransGen_iff_eq_or_transGen

theorem Stands.of_reaches {s t : Spot} (hs : s.Stands) (h : s.Reaches t) :
    t.Stands ∧ t.scene = s.scene := by
  induction h with
  | refl => exact ⟨hs, rfl⟩
  | tail _ hc ih =>
    obtain ⟨hstands, hscene⟩ := ih.1.of_mem_children hc
    exact ⟨hstands, hscene.trans ih.2⟩

/-! ## Trees -/

/-- The nodes at and below `r` are a tree: nothing is above `r`, every other node has the one node
that lists it as its parent, and is listed there once. -/
structure IsTree (r : Spot) : Prop where
  /-- The root stands where its scene has it. -/
  stands : r.Stands
  /-- The root has no parent. -/
  parent?_root : r.parent? = none
  /-- Every node is the parent of its children. -/
  parent?_child : ∀ {s c : Spot}, r.Reaches s → c ∈ s.children → c.parent? = some s
  /-- No node lists a child twice. -/
  nodup_children : ∀ {s : Spot}, r.Reaches s → s.children.Nodup

namespace IsTree

variable {r s t : Spot}

theorem stands_and_scene (ht : r.IsTree) (hs : r.Reaches s) : s.Stands ∧ s.scene = r.scene :=
  ht.stands.of_reaches hs

theorem eq_of_place (ht : r.IsTree) (hs : r.Reaches s) (hu : r.Reaches t)
    (h : s.place = t.place) : s = t := by
  obtain ⟨hsStands, hsScene⟩ := ht.stands_and_scene hs
  obtain ⟨htStands, htScene⟩ := ht.stands_and_scene hu
  exact hsStands.eq_of_place htStands (hsScene.trans htScene.symm) h

theorem same_iff_eq (ht : r.IsTree) (hs : r.Reaches s) (hu : r.Reaches t) :
    s.same t = true ↔ s = t := by
  rw [same_iff]
  exact ⟨ht.eq_of_place hs hu, fun h ↦ by rw [h]⟩

end IsTree

/-! ## The way up -/

/-- The way up from a node by its parents, to a node without one. -/
inductive WayUp : Spot → List Spot → Prop
  | root {s : Spot} : s.parent? = none → WayUp s []
  | step {s p : Spot} {above : List Spot} : s.parent? = some p → WayUp p above →
      WayUp s (p :: above)

namespace WayUp

variable {s : Spot} {above : List Spot}

theorem unique {other : List Spot} (h : WayUp s above) (h' : WayUp s other) : above = other := by
  induction h generalizing other with
  | root hnone =>
    cases h' with
    | root => rfl
    | step hp => exact absurd (hnone.symm.trans hp) (by simp)
  | step hp _ ih =>
    cases h' with
    | root hnone => exact absurd (hnone.symm.trans hp) (by simp)
    | step hp' hrest =>
      obtain rfl := Option.some.inj (hp.symm.trans hp')
      rw [ih hrest]

private theorem of_mem {a : Spot} (h : WayUp s above) (ha : a ∈ above) :
    ∃ rest, WayUp a rest ∧ rest.length < above.length := by
  induction h with
  | root => cases ha
  | step hp hrest ih =>
    rcases List.mem_cons.mp ha with rfl | ha
    · exact ⟨_, hrest, by simp⟩
    · obtain ⟨rest, hway, hlt⟩ := ih ha
      exact ⟨rest, hway, Nat.lt_succ_of_lt hlt⟩

/-- No node stands on its own way up: it would be followed by less than itself. -/
theorem nodup (h : WayUp s above) : (s :: above).Nodup := by
  induction h with
  | root => simp
  | step hp hrest ih =>
    refine List.nodup_cons.mpr ⟨fun hmem ↦ ?_, ih⟩
    have hway := WayUp.step hp hrest
    obtain ⟨rest, hrest', hlt⟩ := hway.of_mem hmem
    rw [hway.unique hrest'] at hlt
    exact Nat.lt_irrefl _ hlt

end WayUp

private theorem ancestorsAlong_of_parent?_eq_none {s : Spot} (h : s.parent? = none)
    (changes : Nat) :
    s.ancestorsAlong changes = [] := by
  obtain ⟨scene, tree, above, node⟩ := s
  -- it is a root as it was loaded, or was left without a parent, or was given one that is not there
  rw [parent?] at h
  split at h
  case h_1 hgiven =>
    cases above with
    | nil => cases changes <;> simp [ancestorsAlong, climb, hgiven]
    | cons crumb rest => cases h
  case h_2 hgiven => cases above <;> cases changes <;> simp [ancestorsAlong, climb, hgiven]
  case h_3 p hgiven =>
    have hp : scene.at? p = none := h
    cases above <;> cases changes <;> simp [ancestorsAlong, climb, hgiven, hp]

private theorem ancestorsAlong_of_given?_eq_none {s p : Spot} (hgiven : s.given? = none)
    (h : s.parent? = some p) (changes : Nat) :
    s.ancestorsAlong changes = p :: p.ancestorsAlong changes := by
  obtain ⟨scene, tree, above, node⟩ := s
  rw [parent?, hgiven] at h
  cases above with
  | nil => simp [ownParent?] at h
  | cons crumb rest =>
    obtain rfl := Option.some.inj h
    cases changes <;> simp [ancestorsAlong, climb, hgiven]

private theorem ancestorsAlong_succ {s p : Spot} (hgiven : s.given?.isSome) (h : s.parent? = some p)
    (changes : Nat) : s.ancestorsAlong (changes + 1) = p :: p.ancestorsAlong changes := by
  obtain ⟨scene, tree, above, node⟩ := s
  obtain ⟨parent, hparent⟩ := Option.isSome_iff_exists.mp hgiven
  rw [parent?, hparent] at h
  cases parent with
  | none => cases h
  | some q =>
    have hq : scene.at? q = some p := h
    cases above <;> simp [ancestorsAlong, climb, hparent, hq]

/-- The way up is found if it has no more changed links than are followed. -/
theorem WayUp.ancestorsAlong_eq {s : Spot} {above : List Spot} (h : WayUp s above) {changes : Nat}
    (hle : (s :: above).countP (·.given?.isSome) ≤ changes) : s.ancestorsAlong changes = above := by
  induction h generalizing changes with
  | root hnone => exact ancestorsAlong_of_parent?_eq_none hnone changes
  | @step s p above hp _ ih =>
    rw [List.countP_cons] at hle
    cases hgiven : s.given? with
    | none =>
      rw [ancestorsAlong_of_given?_eq_none hgiven hp, ih (by simpa [hgiven] using hle)]
    | some parent =>
      simp only [hgiven, Option.isSome_some, if_true] at hle
      obtain ⟨k, rfl⟩ : ∃ k, changes = k + 1 := ⟨changes - 1, by omega⟩
      rw [ancestorsAlong_succ (by simp [hgiven]) hp, ih (by omega)]

private theorem countP_given?_le {scene : Scene} {spots : List Spot}
    (hnodup : (spots.map place).Nodup)
    (hscene : ∀ s ∈ spots, s.scene = scene) :
    spots.countP (·.given?.isSome) ≤ scene.links.parents.length := by
  -- each of them is entered under its own place
  have hsub : (spots.filter (·.given?.isSome)).map place ⊆ scene.links.parents.map Prod.fst := by
    intro p hp
    obtain ⟨s, hs, rfl⟩ := List.mem_map.mp hp
    obtain ⟨hmem, hgiven⟩ := List.mem_filter.mp hs
    rw [given?, hscene s hmem, Option.isSome_map, List.find?_isSome] at hgiven
    obtain ⟨e, he, hplace⟩ := hgiven
    exact List.mem_map.mpr ⟨e, he, by simpa using hplace⟩
  have hsublist : ((spots.filter (·.given?.isSome)).map place).Sublist (spots.map place) :=
    List.filter_sublist.map _
  have hlen := (hnodup.sublist hsublist).length_le_of_subset hsub
  rw [List.countP_eq_length_filter]
  simpa using hlen

namespace IsTree

variable {r s t a c : Spot}

private theorem exists_wayUp (ht : r.IsTree) (hs : r.Reaches s) :
    ∃ above, WayUp s above ∧ ∀ a ∈ above, r.Reaches a := by
  induction hs with
  | refl => exact ⟨[], .root ht.parent?_root, by simp⟩
  | @tail p c hp hc ih =>
    obtain ⟨above, hway, hreach⟩ := ih
    refine ⟨p :: above, .step (ht.parent?_child hp hc) hway, fun a ha ↦ ?_⟩
    rcases List.mem_cons.mp ha with rfl | ha
    · exact hp
    · exact hreach a ha

/-- In a tree the ancestors are the whole way up: its nodes are different ones, so it has no more
changed links than there are. -/
theorem wayUp_ancestors (ht : r.IsTree) (hs : r.Reaches s) : WayUp s s.ancestors := by
  obtain ⟨above, hway, hreach⟩ := ht.exists_wayUp hs
  have hall : ∀ a ∈ s :: above, r.Reaches a := by
    intro a ha
    rcases List.mem_cons.mp ha with rfl | ha
    · exact hs
    · exact hreach a ha
  have hscene : ∀ a ∈ s :: above, a.scene = s.scene := fun a ha ↦
    (ht.stands_and_scene (hall a ha)).2.trans (ht.stands_and_scene hs).2.symm
  have hnodup : ((s :: above).map place).Nodup :=
    hway.nodup.map_on fun a ha b hb h ↦ ht.eq_of_place (hall a ha) (hall b hb) h
  have heq : s.ancestors = above := hway.ancestorsAlong_eq (countP_given?_le hnodup hscene)
  rwa [heq]

theorem ancestors_root (ht : r.IsTree) : r.ancestors = [] :=
  (ht.wayUp_ancestors (.refl r)).unique (.root ht.parent?_root)

theorem ancestors_of_mem_children (ht : r.IsTree) (hs : r.Reaches s) (hc : c ∈ s.children) :
    c.ancestors = s :: s.ancestors :=
  (ht.wayUp_ancestors (hs.child hc)).unique
    (.step (ht.parent?_child hs hc) (ht.wayUp_ancestors hs))

theorem chain_of_mem_children (ht : r.IsTree) (hs : r.Reaches s) (hc : c ∈ s.children) :
    c.chain = c :: s.chain := by
  rw [chain, chain, ht.ancestors_of_mem_children hs hc]

theorem parent_unique (ht : r.IsTree) (hs : r.Reaches s) (hu : r.Reaches t)
    (hcs : c ∈ s.children) (hct : c ∈ t.children) : s = t :=
  Option.some.inj ((ht.parent?_child hs hcs).symm.trans (ht.parent?_child hu hct))

theorem mem_ancestors_iff (ht : r.IsTree) (hs : r.Reaches s) :
    a ∈ s.ancestors ↔ r.Reaches a ∧ a.Holds s := by
  induction hs with
  | refl =>
    rw [ht.ancestors_root]
    refine ⟨fun h ↦ absurd h List.not_mem_nil, fun ⟨ha, hholds⟩ ↦ ?_⟩
    obtain ⟨p, hp, hr⟩ := holds_iff_exists_parent.mp hholds
    exact absurd (ht.parent?_root.symm.trans (ht.parent?_child (ha.trans hp) hr)) (by simp)
  | @tail p c hp hc ih =>
    rw [ht.ancestors_of_mem_children hp hc, List.mem_cons, ih]
    constructor
    · rintro (rfl | ⟨ha, hholds⟩)
      · exact ⟨hp, .single hc⟩
      · exact ⟨ha, hholds.tail hc⟩
    · rintro ⟨ha, hholds⟩
      -- the last step of the way down to `c` starts at the only parent of `c`
      obtain ⟨q, hq, hqc⟩ := holds_iff_exists_parent.mp hholds
      obtain rfl := ht.parent_unique hp (ha.trans hq) hc hqc
      rcases reaches_iff_eq_or_holds.mp hq with rfl | hq
      · exact Or.inl rfl
      · exact Or.inr ⟨ha, hq⟩

theorem isBelow_iff (ht : r.IsTree) (hs : r.Reaches s) (ha : r.Reaches a) :
    s.isBelow a = true ↔ a.Holds s := by
  rw [isBelow, List.any_eq_true]
  constructor
  · rintro ⟨b, hb, hsame⟩
    obtain ⟨hreach, hholds⟩ := (ht.mem_ancestors_iff hs).mp hb
    obtain rfl := (ht.same_iff_eq hreach ha).mp hsame
    exact hholds
  · intro hholds
    exact ⟨a, (ht.mem_ancestors_iff hs).mpr ⟨ha, hholds⟩, same_iff.mpr rfl⟩

theorem not_holds_self (ht : r.IsTree) (hs : r.Reaches s) : ¬s.Holds s := fun h ↦
  (List.nodup_cons.mp (ht.wayUp_ancestors hs).nodup).1 ((ht.mem_ancestors_iff hs).mpr ⟨hs, h⟩)

theorem antisymm (ht : r.IsTree) (hs : r.Reaches s) (hst : s.Reaches t) (hts : t.Reaches s) :
    s = t := by
  rcases reaches_iff_eq_or_holds.mp hst with rfl | hholds
  · rfl
  · exact absurd (hholds.trans_left hts) (ht.not_holds_self hs)

/-- Two nodes on the way up from a third one stand one above the other. -/
theorem reaches_or_holds {a b : Spot} (ht : r.IsTree) (ha : r.Reaches a) (hb : r.Reaches b)
    (hat : a.Reaches t) (hbt : b.Reaches t) : a.Reaches b ∨ b.Holds a := by
  induction hat with
  | refl =>
    rcases reaches_iff_eq_or_holds.mp hbt with rfl | hholds
    · exact Or.inl (.refl _)
    · exact Or.inr hholds
  | @tail p t hap hpt ih =>
    rcases reaches_iff_eq_or_holds.mp hbt with rfl | hholds
    · exact Or.inl (Relation.ReflTransGen.tail hap hpt)
    · -- the last step of the way down from `b` starts at the parent of `t`, too
      obtain ⟨q, hbq, hqt⟩ := holds_iff_exists_parent.mp hholds
      obtain rfl := ht.parent_unique (ha.trans hap) (hb.trans hbq) hpt hqt
      exact ih hbq

theorem eq_of_holds_of_reaches_child {u : Spot} (ht : r.IsTree) (hs : r.Reaches s)
    (hc : c ∈ s.children) (hsu : s.Holds u) (huc : u.Reaches c) : u = c := by
  rcases reaches_iff_eq_or_holds.mp huc with rfl | huc
  · rfl
  · obtain ⟨p, hp, hpc⟩ := holds_iff_exists_parent.mp huc
    obtain rfl := ht.parent_unique (hs.trans (hsu.reaches.trans hp)) hs hpc hc
    exact absurd (hsu.trans_left hp) (ht.not_holds_self hs)

end IsTree

/-! ## The nodes of a scene -/

theorem preorder_eq (s : Spot) : s.preorder = s :: s.ownChildren.flatMap preorder := by
  rw [preorder, records_eq]
  simp [ownShownChildren, Exposure.everything]
  rfl

theorem mem_preorder_of_descend {s t : Spot} {a : List Nat} (h : s.descend a = some t) :
    t ∈ s.preorder := by
  induction a generalizing s with
  | nil =>
    obtain rfl : s = t := Option.some.inj h
    simp [preorder_eq s]
  | cons i rest ih =>
    rw [descend] at h
    split at h
    · cases h
    · rename_i n hn
      obtain ⟨hi, rfl⟩ := List.getElem?_eq_some_iff.mp hn
      rw [preorder_eq]
      refine List.mem_cons_of_mem _ (List.mem_flatMap.mpr ⟨_, ?_, ih h⟩)
      exact List.mem_mapIdx.mpr ⟨i, hi, rfl⟩

theorem length_flatMap_preorder {spots : List Spot}
    (h : ∀ s ∈ spots, s.preorder.length = s.node.size) :
    (spots.flatMap preorder).length = totalSteps spots := by
  induction spots with
  | nil => rfl
  | cons s rest ih =>
    rw [List.flatMap_cons, List.length_append, totalSteps_cons, h s List.mem_cons_self,
      ih fun t ht ↦ h t (List.mem_cons_of_mem s ht)]

private theorem size_le_totalSteps {spots : List Spot} {s : Spot} (h : s ∈ spots) :
    s.node.size ≤ totalSteps spots := by
  obtain ⟨before, after, rfl⟩ := List.append_of_mem h
  rw [totalSteps_append, totalSteps_cons]
  omega

theorem length_preorder (s : Spot) : s.preorder.length = s.node.size := by
  induction hn : s.node.size using Nat.strongRecOn generalizing s with
  | ind n ih =>
    have hown := totalSteps_ownChildren s
    rw [preorder_eq, List.length_cons, length_flatMap_preorder, hown, hn]
    intro c hc
    exact ih c.node.size (by have := size_le_totalSteps hc; omega) c rfl

end Spot

namespace Scene

/-- The nodes of all trees, as these were loaded. -/
def nodes (scene : Scene) : List Spot := scene.roots.flatMap Spot.preorder

private theorem length_nodes (scene : Scene) : scene.nodes.length = scene.size := by
  have hroots : scene.roots.map Spot.node = scene.root :: scene.others := by
    apply List.ext_getElem
    · simp [roots]
    · simp only [roots, List.getElem_map, List.getElem_mapIdx, implies_true]
  rw [nodes, Spot.length_flatMap_preorder fun s _ ↦ s.length_preorder, Spot.totalSteps, hroots,
    size]

theorem mem_nodes_of_stands {s : Spot} (h : s.Stands) : s ∈ s.scene.nodes := by
  rw [Spot.Stands, at?] at h
  split at h
  · cases h
  · rename_i node htree
    refine List.mem_flatMap.mpr ⟨_, ?_, Spot.mem_preorder_of_descend h⟩
    have hnode : (s.scene.root :: s.scene.others)[s.place.tree]? = some node := by
      rw [← htree]
      cases s.place.tree <;> rfl
    obtain ⟨hi, rfl⟩ := List.getElem?_eq_some_iff.mp hnode
    exact List.mem_mapIdx.mpr ⟨s.place.tree, hi, rfl⟩

end Scene

theorem Spot.Stands.length_le_size {r : Spot} {spots : List Spot} (hr : r.Stands)
    (hnodup : spots.Nodup) (h : ∀ s ∈ spots, r.Reaches s) : spots.length ≤ r.scene.size := by
  rw [← Scene.length_nodes]
  refine hnodup.length_le_of_subset fun s hs ↦ ?_
  obtain ⟨hstands, hscene⟩ := hr.of_reaches (h s hs)
  rw [← hscene]
  exact Scene.mem_nodes_of_stands hstands

namespace Spot.IsTree

variable {r s : Spot}

theorem length_ancestors_lt (ht : r.IsTree) (hs : r.Reaches s) :
    s.ancestors.length < r.scene.size := by
  refine ht.stands.length_le_size (ht.wayUp_ancestors hs).nodup fun a ha ↦ ?_
  rcases List.mem_cons.mp ha with rfl | ha
  · exact hs
  · exact ((ht.mem_ancestors_iff hs).mp ha).1

/-- **Induction from below**: what holds of a node of a tree whenever it holds of the children of
that node holds of all its nodes. -/
@[elab_as_elim]
theorem induction_below {motive : Spot → Prop} (ht : r.IsTree)
    (node : ∀ s, r.Reaches s → (∀ c ∈ s.children, motive c) → motive s) (hs : r.Reaches s) :
    motive s := by
  -- one step down makes the way up longer, and it cannot have more nodes than the scene
  induction hn : r.scene.size - s.ancestors.length using Nat.strongRecOn generalizing s with
  | ind n ih =>
    refine node s hs fun c hc ↦ ih _ ?_ (hs.child hc) rfl
    have hlt := ht.length_ancestors_lt (hs.child hc)
    rw [ht.ancestors_of_mem_children hs hc, List.length_cons] at hlt ⊢
    omega

end Spot.IsTree

end SceneSearch
