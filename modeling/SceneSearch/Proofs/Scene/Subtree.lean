import SceneSearch.Proofs.Scene.Tree

/-!
# Trees below a node

A walk goes by what nodes list as their children, and never asks which parents these have.
`Spot.IsSubtree` says of a node that what is listed at and below it is a finite tree. It leaves open
whatever is above the node, and which parents the nodes below it have. Every node of a tree is such
a node.

That the tree is finite means that going down comes to an end, `Spot.Grounded`. So a statement may
be proved from the children of a node to the node, and a recursion over the children is a
definition.
-/

namespace SceneSearch

namespace Spot

variable {r s t c d : Spot}

/-! ## Going down -/

/-- Going down from the node comes to an end. -/
def Grounded (s : Spot) : Prop := Acc (fun c s ↦ c ∈ s.children) s

theorem Grounded.child {s c : Spot} (hs : s.Grounded) (hc : c ∈ s.children) : c.Grounded :=
  hs.inv hc

/-! ## Subtrees -/

/-- What is listed at and below the node is a finite tree: every node but the first one is listed
by one node, and there once. -/
structure IsSubtree (s : Spot) : Prop where
  /-- The node stands where its scene has it. -/
  stands : s.Stands
  /-- Going down comes to an end. -/
  grounded : s.Grounded
  /-- No node lists a child twice. -/
  nodup_children : ∀ {t : Spot}, s.Reaches t → t.children.Nodup
  /-- No two nodes list the same child. -/
  eq_of_mem_children : ∀ {t u c : Spot}, s.Reaches t → s.Reaches u → c ∈ t.children →
    c ∈ u.children → t = u

namespace IsSubtree

theorem of_reaches (hs : s.IsSubtree) (h : s.Reaches t) : t.IsSubtree where
  stands := (hs.stands.of_reaches h).1
  grounded := by
    induction h with
    | refl => exact hs.grounded
    | tail _ hc ih => exact ih.child hc
  nodup_children := fun hu ↦ hs.nodup_children (h.trans hu)
  eq_of_mem_children := fun hu hv ↦ hs.eq_of_mem_children (h.trans hu) (h.trans hv)

theorem child (hs : s.IsSubtree) (hc : c ∈ s.children) : c.IsSubtree :=
  hs.of_reaches (.single hc)

/-- What holds of a node whenever it holds of the children of that node holds of the node. -/
@[elab_as_elim]
theorem induction_below {motive : Spot → Prop}
    (node : ∀ s, s.IsSubtree → (∀ c ∈ s.children, motive c) → motive s) (hs : s.IsSubtree) :
    motive s := by
  induction hs.grounded with
  | intro s _ ih => exact node s hs fun c hc ↦ ih c hc (hs.child hc)

/-- A node that is below itself would be below a child that is below itself. -/
theorem not_holds_self (hs : s.IsSubtree) : ¬s.Holds s := by
  refine hs.induction_below fun s hs ih hholds ↦ ?_
  obtain ⟨c, hc, hcs⟩ := holds_iff_exists_child.mp hholds
  exact ih c hc (holds_iff_exists_parent.mpr ⟨s, hcs, hc⟩)

theorem child_unique (hs : s.IsSubtree) (hc : c ∈ s.children) (hd : d ∈ s.children)
    (hct : c.Reaches t) (hdt : d.Reaches t) : c = d := by
  have hbelow {c u : Spot} (hc : c ∈ s.children) (hcu : c.Reaches u) : s.Holds u :=
    holds_iff_exists_child.mpr ⟨c, hc, hcu⟩
  induction hct with
  | refl =>
    rcases reaches_iff_eq_or_holds.mp hdt with rfl | hholds
    · rfl
    · obtain ⟨p, hp, hcp⟩ := holds_iff_exists_parent.mp hholds
      obtain rfl := hs.eq_of_mem_children (.refl s) (hbelow hd hp).reaches hc hcp
      exact absurd (hbelow hd hp) hs.not_holds_self
  | @tail u t hu htu ih =>
    rcases reaches_iff_eq_or_holds.mp hdt with rfl | hholds
    · obtain rfl := hs.eq_of_mem_children (.refl s) (hbelow hc hu).reaches hd htu
      exact absurd (hbelow hc hu) hs.not_holds_self
    · obtain ⟨p, hp, htp⟩ := holds_iff_exists_parent.mp hholds
      obtain rfl := hs.eq_of_mem_children (hbelow hc hu).reaches (hbelow hd hp).reaches htu htp
      exact ih hp

end IsSubtree

/-! ## Nodes of trees -/

namespace IsTree

theorem grounded (ht : r.IsTree) (hs : r.Reaches s) : s.Grounded :=
  ht.induction_below (fun s _ ih ↦ Acc.intro s ih) hs

theorem isSubtree (ht : r.IsTree) (hs : r.Reaches s) : s.IsSubtree where
  stands := (ht.stands_and_scene hs).1
  grounded := ht.grounded hs
  nodup_children := fun hu ↦ ht.nodup_children (hs.trans hu)
  eq_of_mem_children := fun hu hv ↦ ht.parent_unique (hs.trans hu) (hs.trans hv)

theorem child_unique (ht : r.IsTree) (hs : r.Reaches s) (hc : c ∈ s.children)
    (hd : d ∈ s.children) (hct : c.Reaches t) (hdt : d.Reaches t) : c = d :=
  (ht.isSubtree hs).child_unique hc hd hct hdt

theorem not_holds_sibling (ht : r.IsTree) (hs : r.Reaches s) (hc : c ∈ s.children)
    (hd : d ∈ s.children) : ¬c.Holds d := by
  intro hholds
  obtain rfl := ht.child_unique hs hc hd hholds.reaches (.refl d)
  exact ht.not_holds_self (hs.child hc) hholds

end IsTree

end Spot

end SceneSearch
