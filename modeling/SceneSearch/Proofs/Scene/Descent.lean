import Mathlib.Data.List.Flatten
import SceneSearch.Proofs.Scene.Subtree

/-!
# Walks in trees

Where a node lists a tree every walk below it comes to its end, whatever links were changed: it
visits each node once at most, and has a step for every node of the scene. So what is recorded at
and below a node is what is recorded there, and then what is recorded at and below the children in
turn. These equations, and induction from below, are all that is used of walks from here on.
-/

namespace SceneSearch

/-! ## Walks that come to an end -/

section

variable {α β : Type} {below : β → List β} {record : β → Option (List α)}

/-- A walk goes through the first of what waits in a number of steps, and records a list. -/
def Finishes (below : β → List β) (record : β → Option (List α)) (first : List β) (steps : Nat)
    (recorded : List α) : Prop :=
  ∀ (more : Nat) (waiting : List β),
    walk below record (steps + more) (first ++ waiting) = recorded ++ walk below record more waiting

@[simp] theorem walk_nil (steps : Nat) : walk below record steps [] = [] := by
  cases steps <;> rfl

namespace Finishes

theorem nil : Finishes below record [] 0 [] := fun more waiting ↦ by simp

theorem append {first second : List β} {m n : Nat} {a b : List α}
    (h : Finishes below record first m a) (h' : Finishes below record second n b) :
    Finishes below record (first ++ second) (m + n) (a ++ b) := fun more waiting ↦ by
  rw [Nat.add_assoc, List.append_assoc, h, h', List.append_assoc]

private theorem leftOut {b : β} (h : record b = none) : Finishes below record [b] 1 [] :=
  fun more waiting ↦ by
    rw [Nat.add_comm, List.singleton_append, walk, h, List.nil_append]

theorem visited {b : β} {here rest : List α} {n : Nat} (h : record b = some here)
    (hbelow : Finishes below record (below b) n rest) :
    Finishes below record [b] (n + 1) (here ++ rest) := fun more waiting ↦ by
  rw [Nat.add_right_comm, List.singleton_append, walk, h, List.append_assoc]
  exact congrArg _ (hbelow more waiting)

/-- A walk that has the steps to go through everything records what it records on the way. -/
theorem walk_eq {first : List β} {n : Nat} {a : List α} (h : Finishes below record first n a)
    {steps : Nat} (hle : n ≤ steps) : walk below record steps first = a := by
  obtain ⟨more, rfl⟩ := Nat.exists_eq_add_of_le hle
  simpa using h more []

end Finishes

end

namespace Spot

variable {α : Type}

/-- Where links were changed a walk has a step for every node of the scene. -/
theorem size_le_steps {s : Spot} (h : s.scene.links ≠ {}) : s.scene.size ≤ s.steps := by
  have hchanges : 0 < s.scene.links.children.length + s.scene.links.parents.length := by
    rcases hlinks : s.scene.links with ⟨_ | _, _ | _⟩
    · exact absurd hlinks h
    all_goals simp only [List.length_cons, List.length_nil]; omega
  calc s.scene.size ≤ spareSteps + s.scene.size := Nat.le_add_left _ _
    _ ≤ (spareSteps + s.scene.size)
        * (s.scene.links.children.length + s.scene.links.parents.length) :=
      Nat.le_mul_of_pos_right _ hchanges
    _ ≤ s.steps := Nat.le_add_left _ _

theorem records_eq_gather_of_links_eq {s : Spot} (h : s.scene.links = {}) {shown : Exposure}
    {record : Spot → Option (List α)} :
    ∀ c ∈ s.ownShownChildren shown, c.records shown record = c.gather shown record := fun _ hc ↦
  (gather_eq_records ((scene_of_mem_ownShownChildren hc).symm ▸ h) shown record).symm

theorem mem_children_of_mem_shownChildren {shown : Exposure} {s c : Spot}
    (h : c ∈ s.shownChildren shown) : c ∈ s.children := (List.mem_filter.mp h).1

@[simp] theorem shownChildren_everything (s : Spot) : s.shownChildren .everything = s.children :=
  List.filter_eq_self.mpr fun _ _ ↦ rfl

/-- What is recorded at a node, and then at and below its shown children in turn. -/
def recurse (shown : Exposure) (record : Spot → Option (List α)) (s : Spot) : List α :=
  match record s with
  | none => []
  | some here => here ++ (s.shownChildren shown).flatMap (gather shown record)

/-- A walk at and below a node comes to its end, having gone through different nodes. -/
def Walked (shown : Exposure) (record : Spot → Option (List α)) (s : Spot) : Prop :=
  ∃ visited : List Spot, visited.Nodup ∧ (∀ v ∈ visited, s.Reaches v) ∧
    Finishes (shownChildren shown) record [s] visited.length (s.gather shown record)

/-- Where links were changed a walk has a step for every node that it may come to. -/
theorem Stands.length_le_steps {s : Spot} (hs : s.Stands) (hlinks : s.scene.links ≠ {})
    {visited : List Spot} (hnodup : visited.Nodup) (hreach : ∀ v ∈ visited, s.Reaches v) :
    visited.length ≤ s.steps :=
  Nat.le_trans (hs.length_le_size hnodup hreach) (size_le_steps hlinks)

namespace IsSubtree

variable {s c : Spot} {shown : Exposure} {record : Spot → Option (List α)}

/-- Walks at and below some children of a node, one after the other, go through different nodes. -/
theorem finishes_children (hs : s.IsSubtree) {spots : List Spot} (hnodup : spots.Nodup)
    (hsub : ∀ c ∈ spots, c ∈ s.children) (h : ∀ c ∈ spots, c.Walked shown record) :
    ∃ visited : List Spot, visited.Nodup ∧ (∀ v ∈ visited, ∃ c ∈ spots, c.Reaches v) ∧
      Finishes (shownChildren shown) record spots visited.length
        (spots.flatMap (gather shown record)) := by
  induction spots with
  | nil => exact ⟨[], List.nodup_nil, by simp, .nil⟩
  | cons c rest ih =>
    obtain ⟨hc, hrest⟩ := List.nodup_cons.mp hnodup
    obtain ⟨first, hfirst, hreach, hfinish⟩ := h c List.mem_cons_self
    obtain ⟨second, hsecond, hreach', hfinish'⟩ := ih hrest
      (fun d hd ↦ hsub d (List.mem_cons_of_mem c hd)) (fun d hd ↦ h d (List.mem_cons_of_mem c hd))
    refine ⟨first ++ second, ?_, ?_, ?_⟩
    · refine List.nodup_append.mpr ⟨hfirst, hsecond, ?_⟩
      rintro v hv _ hv' rfl
      obtain ⟨d, hd, hdv⟩ := hreach' v hv'
      obtain rfl := hs.child_unique (hsub c List.mem_cons_self)
        (hsub d (List.mem_cons_of_mem c hd)) (hreach v hv) hdv
      exact hc hd
    · intro v hv
      rcases List.mem_append.mp hv with hv | hv
      · exact ⟨c, List.mem_cons_self, hreach v hv⟩
      · obtain ⟨d, hd, hdv⟩ := hreach' v hv
        exact ⟨d, List.mem_cons_of_mem c hd, hdv⟩
    · rw [List.length_append]
      exact hfinish.append hfinish'

/-- A walk below a node, if those at and below its children come to their ends. -/
theorem finishes_shownChildren (hs : s.IsSubtree) (h : ∀ c ∈ s.children, c.Walked shown record) :
    ∃ visited : List Spot, visited.Nodup ∧ (∀ v ∈ visited, s.Holds v) ∧
      Finishes (shownChildren shown) record (s.shownChildren shown) visited.length
        ((s.shownChildren shown).flatMap (gather shown record)) := by
  obtain ⟨visited, hnodup, hreach, hfinish⟩ := hs.finishes_children
    ((hs.nodup_children (.refl s)).filter _) (fun c hc ↦ mem_children_of_mem_shownChildren hc)
    (fun c hc ↦ h c (mem_children_of_mem_shownChildren hc))
  refine ⟨visited, hnodup, fun v hv ↦ ?_, hfinish⟩
  obtain ⟨c, hc, hcv⟩ := hreach v hv
  exact holds_iff_exists_child.mpr ⟨c, mem_children_of_mem_shownChildren hc, hcv⟩

/-- What a walk records that comes to its end with different nodes of the tree. -/
theorem gather_eq_of_finishes (hs : s.IsSubtree) {visited : List Spot} (hnodup : visited.Nodup)
    (hreach : ∀ v ∈ visited, s.Reaches v)
    (hfinish : Finishes (shownChildren shown) record [s] visited.length
      (s.recurse shown record)) :
    s.gather shown record = s.recurse shown record := by
  by_cases hlinks : s.scene.links = {}
  · -- without changed links a walk has a step for each node below, but perhaps for no other one
    have hbelow : (s.ownShownChildren shown).flatMap (records shown record) =
        (s.shownChildren shown).flatMap (gather shown record) := by
      rw [shownChildren_of_links_eq hlinks]
      exact List.flatMap_congr (records_eq_gather_of_links_eq hlinks)
    have hrecords := records_eq shown record s
    rw [hbelow] at hrecords
    exact (gather_eq_records hlinks shown record).trans hrecords
  · exact hfinish.walk_eq (hs.stands.length_le_steps hlinks hnodup hreach)

theorem finishes_recurse (hs : s.IsSubtree) (h : ∀ c ∈ s.children, c.Walked shown record) :
    ∃ visited : List Spot, visited.Nodup ∧ (∀ v ∈ visited, s.Reaches v) ∧
      Finishes (shownChildren shown) record [s] visited.length (s.recurse shown record) := by
  cases hrecord : record s with
  | none =>
    refine ⟨[s], by simp, by simp [Reaches.refl], ?_⟩
    rw [recurse, hrecord]
    exact .leftOut hrecord
  | some here =>
    -- the node itself is one visit more, and not among those below it
    obtain ⟨visited, hnodup, hholds, hfinish⟩ := hs.finishes_shownChildren h
    refine ⟨s :: visited, ?_, ?_, ?_⟩
    · exact List.nodup_cons.mpr ⟨fun h ↦ hs.not_holds_self (hholds s h), hnodup⟩
    · intro v hv
      rcases List.mem_cons.mp hv with rfl | hv
      · exact .refl v
      · exact (hholds v hv).reaches
    · rw [recurse, hrecord]
      exact .visited hrecord hfinish

theorem walked (hs : s.IsSubtree) : s.Walked shown record := by
  refine hs.induction_below fun s hs ih ↦ ?_
  obtain ⟨visited, hnodup, hreach, hfinish⟩ := hs.finishes_recurse ih
  refine ⟨visited, hnodup, hreach, ?_⟩
  rwa [hs.gather_eq_of_finishes hnodup hreach hfinish]

/-- **Walks are recursions**: at and below a node is recorded what is recorded there, then what is
recorded at and below its shown children in turn. -/
theorem gather_eq (hs : s.IsSubtree) : s.gather shown record = s.recurse shown record := by
  have hchildren : ∀ c ∈ s.children, c.Walked shown record := fun c hc ↦ (hs.child hc).walked
  obtain ⟨visited, hnodup, hreach, hfinish⟩ := hs.finishes_recurse hchildren
  exact hs.gather_eq_of_finishes hnodup hreach hfinish

private theorem gatherBelow_eq (hs : s.IsSubtree) :
    s.gatherBelow shown record = (s.shownChildren shown).flatMap (gather shown record) := by
  by_cases hlinks : s.scene.links = {}
  · rw [gatherBelow_eq_flatMap hlinks, shownChildren_of_links_eq hlinks,
      List.flatMap_congr (records_eq_gather_of_links_eq hlinks)]
  · have hchildren : ∀ c ∈ s.children, c.Walked shown record := fun c hc ↦ (hs.child hc).walked
    obtain ⟨visited, hnodup, hholds, hfinish⟩ := hs.finishes_shownChildren hchildren
    exact hfinish.walk_eq (hs.stands.length_le_steps hlinks hnodup fun v hv ↦ (hholds v hv).reaches)

end IsSubtree

/-! ## Descendants -/

/-- The node and what is shown below it, unless `prune` names the node. -/
def part (shown : Exposure) (prune : Spot → Bool) (s : Spot) : List Spot :=
  s.gather shown fun a ↦ if prune a then none else some [a]

/-- A step down that a walk takes. -/
def StepsTo (shown : Exposure) (prune : Spot → Bool) (s c : Spot) : Prop :=
  c ∈ s.shownChildren shown ∧ prune c = false

/-- On the way down from `s` to `t`, as far as it is shown, `prune` names no node below `s`. -/
def Unpruned (shown : Exposure) (prune : Spot → Bool) (s t : Spot) : Prop :=
  ∀ u, Relation.TransGen (StepsTo shown fun _ ↦ false) s u →
    Relation.ReflTransGen (StepsTo shown fun _ ↦ false) u t → prune u = false

section

variable {s t c : Spot} {shown : Exposure} {prune : Spot → Bool}

theorem StepsTo.mem_children (h : StepsTo shown prune s c) : c ∈ s.children :=
  mem_children_of_mem_shownChildren h.1

theorem holds_of_stepsTo (h : Relation.TransGen (StepsTo shown prune) s t) : s.Holds t :=
  Relation.TransGen.mono (fun _ _ ↦ StepsTo.mem_children) s t h

theorem reaches_of_stepsTo (h : Relation.ReflTransGen (StepsTo shown prune) s t) : s.Reaches t :=
  Relation.ReflTransGen.mono (fun _ _ ↦ StepsTo.mem_children) s t h

end

namespace IsSubtree

variable {s t c : Spot} {shown : Exposure} {prune : Spot → Bool}

theorem descendants_eq (hs : s.IsSubtree) :
    s.descendants shown prune = (s.shownChildren shown).flatMap (part shown prune) :=
  hs.gatherBelow_eq

theorem part_eq (hs : s.IsSubtree) :
    s.part shown prune = if prune s then [] else s :: s.descendants shown prune := by
  rw [part, hs.gather_eq, recurse, hs.descendants_eq]
  cases prune s <;> rfl

theorem mem_descendants_iff (hs : s.IsSubtree) :
    t ∈ s.descendants shown prune ↔ Relation.TransGen (StepsTo shown prune) s t := by
  refine hs.induction_below fun s hs ih ↦ ?_
  rw [hs.descendants_eq, List.mem_flatMap, Relation.TransGen.head'_iff]
  refine exists_congr fun c ↦ ?_
  rw [StepsTo, and_assoc]
  refine and_congr_right fun hc ↦ ?_
  have hchild := mem_children_of_mem_shownChildren hc
  rw [(hs.child hchild).part_eq, Relation.reflTransGen_iff_eq_or_transGen, ← ih c hchild]
  cases prune c <;> simp

theorem holds_of_mem_descendants (hs : s.IsSubtree) (h : t ∈ s.descendants shown prune) :
    s.Holds t :=
  holds_of_stepsTo (hs.mem_descendants_iff.mp h)

private theorem unpruned_of_stepsTo (hs : s.IsSubtree) {p : Spot} (hp : s.Reaches p)
    (hpt : StepsTo shown prune p t) (h : Unpruned shown prune s p) :
    Unpruned shown prune s t := by
  intro u hsu hut
  rcases hut.cases_tail with rfl | ⟨q, huq, hqt⟩
  · exact hpt.2
  · -- the last step of the way down from `u` starts at the only node that lists `t`
    have hq : s.Reaches q := (holds_of_stepsTo hsu).reaches.trans (reaches_of_stepsTo huq)
    obtain rfl := hs.eq_of_mem_children hq hp hqt.mem_children hpt.mem_children
    exact h u hsu huq

theorem transGen_stepsTo_iff (hs : s.IsSubtree) :
    Relation.TransGen (StepsTo shown prune) s t ↔
      Relation.TransGen (StepsTo shown fun _ ↦ false) s t ∧ Unpruned shown prune s t := by
  constructor
  · intro h
    induction h with
    | single hst =>
      refine ⟨.single ⟨hst.1, rfl⟩, hs.unpruned_of_stepsTo (.refl s) hst fun u hsu hus ↦ ?_⟩
      exact absurd ((holds_of_stepsTo hsu).trans_left (reaches_of_stepsTo hus)) hs.not_holds_self
    | tail hsp hpt ih =>
      have hp := (holds_of_stepsTo hsp).reaches
      exact ⟨ih.1.tail ⟨hpt.1, rfl⟩, hs.unpruned_of_stepsTo hp hpt ih.2⟩
  · rintro ⟨h, hunpruned⟩
    induction h with
    | single hst => exact .single ⟨hst.1, hunpruned _ (.single hst) .refl⟩
    | tail hsp hpt ih =>
      refine (ih fun u hsu hup ↦ hunpruned u hsu (hup.tail hpt)).tail ⟨hpt.1, ?_⟩
      exact hunpruned _ (hsp.tail hpt) .refl

/-- **What is left out** are the nodes that `prune` names and what is shown below them, and nothing
else. -/
theorem mem_descendants_iff_unpruned (hs : s.IsSubtree) :
    t ∈ s.descendants shown prune ↔ t ∈ (s.descendants shown fun _ ↦ false) ∧
      ∀ u ∈ s.descendants shown fun _ ↦ false,
        t = u ∨ t ∈ (u.descendants shown fun _ ↦ false) → prune u = false := by
  rw [hs.mem_descendants_iff, hs.transGen_stepsTo_iff, ← hs.mem_descendants_iff]
  refine and_congr_right fun _ ↦ forall_congr' fun u ↦ ?_
  rw [← hs.mem_descendants_iff]
  refine imp_congr_right fun hu ↦ ?_
  rw [Relation.reflTransGen_iff_eq_or_transGen,
    (hs.of_reaches (hs.holds_of_mem_descendants hu).reaches).mem_descendants_iff]

theorem descendants_sublist_of_prune (hs : s.IsSubtree) {prune' : Spot → Bool}
    (hprune : ∀ c, prune c = false → prune' c = false) :
    (s.descendants shown prune).Sublist (s.descendants shown prune') := by
  refine hs.induction_below fun s hs ih ↦ ?_
  rw [hs.descendants_eq, hs.descendants_eq]
  refine List.Sublist.flatMap_right _ fun c hc ↦ ?_
  have hchild := mem_children_of_mem_shownChildren hc
  rw [(hs.child hchild).part_eq, (hs.child hchild).part_eq]
  cases hcut : prune c with
  | true => exact List.nil_sublist _
  | false =>
    rw [hprune c hcut]
    exact (ih c hchild).cons_cons c

theorem reaches_of_mem_part (hs : s.IsSubtree) (h : t ∈ s.part shown prune) : s.Reaches t := by
  rw [hs.part_eq] at h
  cases hprune : prune s with
  | true => simp [hprune] at h
  | false =>
    simp only [hprune, Bool.false_eq_true, if_false, List.mem_cons] at h
    exact reaches_iff_eq_or_holds.mpr (h.imp_right hs.holds_of_mem_descendants)

theorem nodup_descendants (hs : s.IsSubtree) : (s.descendants shown prune).Nodup := by
  refine hs.induction_below fun s hs ih ↦ ?_
  rw [hs.descendants_eq, List.nodup_flatMap]
  have hchild : ∀ {c}, c ∈ s.shownChildren shown → c ∈ s.children :=
    mem_children_of_mem_shownChildren
  constructor
  · intro c hc
    have hsub := hs.child (hchild hc)
    rw [hsub.part_eq]
    cases prune c with
    | true => simp
    | false =>
      refine List.nodup_cons.mpr ⟨fun h ↦ ?_, ih c (hchild hc)⟩
      exact hsub.not_holds_self (hsub.holds_of_mem_descendants h)
  · have hnodup : (s.shownChildren shown).Nodup := (hs.nodup_children (.refl s)).filter _
    refine hnodup.imp_of_mem fun {c d} hc hd hne t htc htd ↦ hne ?_
    exact hs.child_unique (hchild hc) (hchild hd)
      ((hs.child (hchild hc)).reaches_of_mem_part htc)
      ((hs.child (hchild hd)).reaches_of_mem_part htd)

end IsSubtree

/-! ## Descendants in a tree -/

namespace IsTree

variable {r s t c : Spot} {shown : Exposure} {prune : Spot → Bool}

theorem descendants_eq (ht : r.IsTree) (hs : r.Reaches s) :
    s.descendants shown prune = (s.shownChildren shown).flatMap (part shown prune) :=
  (ht.isSubtree hs).descendants_eq

theorem part_eq (ht : r.IsTree) (hs : r.Reaches s) :
    s.part shown prune = if prune s then [] else s :: s.descendants shown prune :=
  (ht.isSubtree hs).part_eq

theorem holds_of_mem_descendants (ht : r.IsTree) (hs : r.Reaches s)
    (h : t ∈ s.descendants shown prune) : s.Holds t :=
  (ht.isSubtree hs).holds_of_mem_descendants h

theorem reaches_of_mem_part (ht : r.IsTree) (hs : r.Reaches s) (h : t ∈ s.part shown prune) :
    s.Reaches t :=
  (ht.isSubtree hs).reaches_of_mem_part h

theorem mem_descendants_everything_iff (ht : r.IsTree) (hs : r.Reaches s) :
    t ∈ s.descendants .everything (fun _ ↦ false) ↔ s.Holds t := by
  have hstep : StepsTo .everything (fun _ ↦ false) = fun s c ↦ c ∈ s.children := by
    funext s c
    simp [StepsTo]
  rw [(ht.isSubtree hs).mem_descendants_iff, hstep]
  rfl

theorem descendants_subset (ht : r.IsTree) (hs : r.Reaches s) {prune' : Spot → Bool}
    (hprune : ∀ c, prune c = false → prune' c = false) :
    s.descendants shown prune ⊆ s.descendants shown prune' :=
  ((ht.isSubtree hs).descendants_sublist_of_prune hprune).subset

theorem subtree_eq (ht : r.IsTree) (hs : r.Reaches s) :
    s.subtree = s :: s.descendants .everything fun _ ↦ false := by
  have hpart : s.subtree = s.part .everything fun _ ↦ false := rfl
  rw [hpart, ht.part_eq hs]
  rfl

theorem mem_subtree_iff (ht : r.IsTree) (hs : r.Reaches s) : t ∈ s.subtree ↔ s.Reaches t := by
  rw [ht.subtree_eq hs, List.mem_cons, reaches_iff_eq_or_holds,
    ← ht.mem_descendants_everything_iff hs]

theorem nodup_descendants (ht : r.IsTree) (hs : r.Reaches s) :
    (s.descendants shown prune).Nodup :=
  (ht.isSubtree hs).nodup_descendants

theorem pairwise_descendants (ht : r.IsTree) (hs : r.Reaches s) :
    (s.descendants shown prune).Pairwise fun a b ↦ ¬b.Holds a := by
  refine ht.induction_below (fun s hs ih ↦ ?_) hs
  rw [ht.descendants_eq hs, List.pairwise_flatMap]
  have hchild : ∀ {c}, c ∈ s.shownChildren shown → r.Reaches c := fun hc ↦
    hs.child (mem_children_of_mem_shownChildren hc)
  constructor
  · intro c hc
    rw [ht.part_eq (hchild hc)]
    split
    · exact .nil
    · refine List.pairwise_cons.mpr ⟨fun t htc hholds ↦ ?_, ih c ?_⟩
      · have hct := ht.holds_of_mem_descendants (hchild hc) htc
        exact ht.not_holds_self (hchild hc) (hct.trans hholds)
      · exact mem_children_of_mem_shownChildren hc
  · have hnodup : (s.shownChildren shown).Nodup := (ht.nodup_children hs).filter _
    refine hnodup.imp_of_mem fun {c d} hc hd hne a ha b hb hholds ↦ hne ?_
    have hda := (ht.reaches_of_mem_part (hchild hd) hb).trans hholds.reaches
    exact ht.child_unique hs (mem_children_of_mem_shownChildren hc)
      (mem_children_of_mem_shownChildren hd) (ht.reaches_of_mem_part (hchild hc) ha) hda

/-! ## The order of a document -/

theorem descendants_everything_eq (ht : r.IsTree) (hs : r.Reaches s) :
    (s.descendants .everything fun _ ↦ false) = s.children.flatMap subtree := by
  rw [ht.descendants_eq hs, shownChildren_everything]
  rfl

theorem nodup_subtree (ht : r.IsTree) (hs : r.Reaches s) : s.subtree.Nodup := by
  rw [ht.subtree_eq hs, List.nodup_cons]
  refine ⟨fun hmem ↦ ht.not_holds_self hs ?_, ht.nodup_descendants hs⟩
  exact (ht.mem_descendants_everything_iff hs).mp hmem

/-- No node is at or below one that comes later in the order of a document. -/
theorem pairwise_subtree (ht : r.IsTree) (hs : r.Reaches s) :
    s.subtree.Pairwise fun a b ↦ ¬b.Reaches a := by
  rw [ht.subtree_eq hs]
  refine List.pairwise_cons.mpr ⟨fun t hmem hreach ↦ ?_, ?_⟩
  · have hholds := (ht.mem_descendants_everything_iff hs).mp hmem
    exact ht.not_holds_self hs (Relation.TransGen.trans_left hholds hreach)
  · refine (ht.pairwise_descendants hs).imp₂ (fun a b hholds hne hreach ↦ ?_)
      (ht.nodup_descendants hs)
    exact (reaches_iff_eq_or_holds.mp hreach).elim hne hholds

/-- What is at and below a node follows the order of whatever it is in. -/
theorem subtree_sublist (ht : r.IsTree) (hs : r.Reaches s) (hst : s.Reaches t) :
    t.subtree.Sublist s.subtree := by
  induction hst with
  | refl => exact .refl _
  | @tail p c hp hc ih =>
    refine List.Sublist.trans ?_ ih
    have hreach := hs.trans hp
    rw [ht.subtree_eq hreach, ht.descendants_everything_eq hreach]
    have hchild := (List.singleton_sublist.mpr hc).flatMap subtree
    rw [List.flatMap_singleton] at hchild
    exact hchild.cons p

theorem children_sublist (ht : r.IsTree) (hs : r.Reaches s) :
    s.children.Sublist (s.descendants .everything fun _ ↦ false) := by
  have hheads : ∀ c ∈ s.children, [c].Sublist c.subtree := by
    intro c hc
    rw [ht.subtree_eq (hs.child hc)]
    exact (List.nil_sublist _).cons_cons c
  rw [ht.descendants_everything_eq hs]
  simpa using List.Sublist.flatMap_right s.children hheads

theorem descendants_sublist (ht : r.IsTree) (hs : r.Reaches s) (shown : Exposure)
    (prune : Spot → Bool) :
    (s.descendants shown prune).Sublist (s.descendants .everything fun _ ↦ false) := by
  refine ht.induction_below (fun s hs ih ↦ ?_) hs
  rw [ht.descendants_eq hs, ht.descendants_everything_eq hs]
  have hparts : ∀ c ∈ s.shownChildren shown, (c.part shown prune).Sublist c.subtree := by
    intro c hc
    have hchild := mem_children_of_mem_shownChildren hc
    rw [ht.part_eq (hs.child hchild), ht.subtree_eq (hs.child hchild)]
    split
    · exact List.nil_sublist _
    · exact (ih c hchild).cons_cons c
  exact (List.Sublist.flatMap_right _ hparts).trans (List.filter_sublist.flatMap subtree)

end IsTree

end Spot

end SceneSearch
