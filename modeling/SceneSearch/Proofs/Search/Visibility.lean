import SceneSearch.Proofs.Scene.Orderly
import SceneSearch.Search.Visibility

/-!
# Two ways to look for what is visible

A walk down may leave out hidden nodes with all that is below them, or it may go everywhere and look
up from each node that it comes to. The two find the same nodes in the same order below any scope
that holds only layers: the way up from a node ends at the scope, and what is on it below the scope
is the way down. The comparison goes one step down at a time, so that induction from below carries
it; `belowScope_append` says what one step adds to the way up.

Below the root of a document the two differ, since a way up ends at a page. What they have in common
even there is that the invisible children of instances do not matter: neither finds them, whether
the host shows them or not.
-/

namespace SceneSearch

variable {r s t c p : Spot}

theorem Spot.HoldsOnlyLayers.of_mem_children (h : s.HoldsOnlyLayers) (hc : c ∈ s.children) :
    c.HoldsOnlyLayers := fun t ht ↦
  h t ((Relation.TransGen.single hc).trans ht)

namespace Spot

/-! ## The way up to a scope -/

@[simp] theorem belowScope_self (s : Spot) : s.belowScope (some s) = [] := by
  have hsame : s.same s = true := same_iff.mpr rfl
  rw [belowScope, chain, List.takeWhile_cons]
  simp [hsame]

@[simp] theorem isEffectivelyVisible_self (s : Spot) : s.isEffectivelyVisible (some s) = true := by
  simp [isEffectivelyVisible]

namespace IsTree

theorem belowScope_of_mem_children (ht : r.IsTree) (hs : r.Reaches s) (hsp : s.Reaches p)
    (hc : c ∈ p.children) (hkind : c.kind.isRootLike = false) :
    c.belowScope (some s) = c :: p.belowScope (some s) := by
  have hreach : r.Reaches p := hs.trans hsp
  have hne : c.same s = false := by
    rw [Bool.eq_false_iff, Ne, ht.same_iff_eq (hreach.child hc) hs]
    rintro rfl
    exact ht.not_holds_self hs (holds_iff_exists_parent.mpr ⟨p, hsp, hc⟩)
  rw [belowScope, ht.chain_of_mem_children hreach hc, List.takeWhile_cons]
  simp [hne, hkind, belowScope]

/-- **One step down**: the way up to a scope is the way up to a child of it, and then that child
unless the way ends there. -/
theorem belowScope_append (ht : r.IsTree) (hs : r.Reaches s) (hc : c ∈ s.children)
    (hlayers : c.HoldsOnlyLayers) (hct : c.Reaches t) :
    t.belowScope (some s) =
      t.belowScope (some c) ++ if c.kind.isRootLike then [] else [c] := by
  -- by induction on the way down from the child, one node more at the lower end of both ways up
  induction hct with
  | refl =>
    cases hkind : c.kind.isRootLike with
    | true => simp [belowScope, chain, hkind]
    | false =>
      rw [ht.belowScope_of_mem_children hs (.refl s) hc hkind, belowScope_self, belowScope_self]
      rfl
  | @tail p t hp htp ih =>
    have hkind : t.kind.isRootLike = false := hlayers t (holds_iff_exists_parent.mpr ⟨p, hp, htp⟩)
    have hsp : s.Reaches p := (Reaches.refl s).child hc |>.trans hp
    rw [ht.belowScope_of_mem_children hs hsp htp hkind,
      ht.belowScope_of_mem_children (hs.child hc) hp htp hkind, ih, List.cons_append]

theorem isEffectivelyVisible_eq (ht : r.IsTree) (hs : r.Reaches s) (hc : c ∈ s.children)
    (hlayers : c.HoldsOnlyLayers) (hct : c.Reaches t) :
    t.isEffectivelyVisible (some s) =
      ((c.kind.isRootLike || c.visible) && t.isEffectivelyVisible (some c)) := by
  rw [isEffectivelyVisible, ht.belowScope_append hs hc hlayers hct, List.all_append, Bool.and_comm]
  cases c.kind.isRootLike <;> simp [isEffectivelyVisible]

/-- A child is visible in a scope if its own flag says so; a page always is. -/
theorem isEffectivelyVisible_child (ht : r.IsTree) (hs : r.Reaches s) (hc : c ∈ s.children)
    (hlayers : c.HoldsOnlyLayers) :
    c.isEffectivelyVisible (some s) = (c.kind.isRootLike || c.visible) := by
  rw [ht.isEffectivelyVisible_eq hs hc hlayers (.refl c), isEffectivelyVisible_self, Bool.and_true]

theorem isEffectivelyVisible_parent? (ht : r.IsTree) (hs : r.Reaches s)
    (hkind : s.kind.isRootLike = false) : s.isEffectivelyVisible s.parent? = s.visible := by
  rcases reaches_iff_eq_or_holds.mp hs with rfl | hholds
  · rw [isEffectivelyVisible, belowScope, chain, ht.ancestors_root, ht.parent?_root]
    simp [hkind]
  · obtain ⟨p, hp, hps⟩ := holds_iff_exists_parent.mp hholds
    rw [ht.parent?_child hp hps, isEffectivelyVisible,
      ht.belowScope_of_mem_children hp (.refl p) hps hkind, belowScope_self]
    simp

/-! ## Going down and looking up -/

/-- **Going down without hidden parts finds what looking up leaves visible**, in the same order. -/
theorem filter_isEffectivelyVisible (ht : r.IsTree) (hs : r.Reaches s)
    (hlayers : s.HoldsOnlyLayers) {shown : Exposure} :
    (s.descendants shown fun _ ↦ false).filter (·.isEffectivelyVisible (some s)) =
      s.descendants shown (!·.visible) := by
  revert hlayers
  refine ht.induction_below (fun s hs ih hlayers ↦ ?_) hs
  rw [ht.descendants_eq hs, ht.descendants_eq hs, List.filter_flatMap]
  refine List.flatMap_congr fun c hc ↦ ?_
  have hmem : c ∈ s.children := mem_children_of_mem_shownChildren hc
  have hkind : c.kind.isRootLike = false := hlayers c (.single hmem)
  have hbelow : c.HoldsOnlyLayers := hlayers.of_mem_children hmem
  have hvisible : ∀ t, c.Reaches t →
      t.isEffectivelyVisible (some s) = (c.visible && t.isEffectivelyVisible (some c)) := by
    intro t hct
    rw [ht.isEffectivelyVisible_eq hs hmem hbelow hct, hkind, Bool.false_or]
  rw [ht.part_eq (hs.child hmem), ht.part_eq (hs.child hmem)]
  cases hv : c.visible with
  | false =>
    -- a hidden child is on the way up from everything below it
    refine List.filter_eq_nil_iff.mpr fun t hmem' ↦ ?_
    have hct : c.Reaches t := by
      rw [if_neg (by simp), List.mem_cons] at hmem'
      exact reaches_iff_eq_or_holds.mpr
        (hmem'.imp_right (ht.holds_of_mem_descendants (hs.child hmem)))
    simp [hvisible t hct, hv]
  | true =>
    rw [if_neg (by simp), if_neg (by simp), List.filter_cons_of_pos, ← ih c hmem hbelow]
    · refine congrArg _ (List.filter_congr fun t hmem' ↦ ?_)
      have hct := (ht.holds_of_mem_descendants (hs.child hmem) hmem').reaches
      simp [hvisible t hct, hv]
    · simp [hvisible c (.refl c), hv]

theorem mem_descendants_visible_iff (ht : r.IsTree) (hs : r.Reaches s) :
    t ∈ s.descendants .everything (!·.visible) ↔
      s.Holds t ∧ ∀ u, s.Holds u → u.Reaches t → u.visible = true := by
  rw [(ht.isSubtree hs).mem_descendants_iff_unpruned, ht.mem_descendants_everything_iff hs]
  refine and_congr_right fun _ ↦ forall_congr' fun u ↦ ?_
  rw [ht.mem_descendants_everything_iff hs]
  refine imp_congr_right fun hu ↦ ?_
  rw [ht.mem_descendants_everything_iff (hs.trans hu.reaches), ← reaches_iff_eq_or_holds,
    Bool.not_eq_false']

end IsTree

end Spot

/-! ## Invisible children of instances -/

theorem Host.exposure_false : Host.exposure false = .everything := by
  funext parent child
  simp [exposure, Exposure.everything]

theorem flatMap_filter_of_eq_nil {α β : Type} {keep : α → Bool} {f : α → List β} {items : List α}
    (h : ∀ a ∈ items, keep a = false → f a = []) :
    (items.filter keep).flatMap f = items.flatMap f := by
  induction items with
  | nil => rfl
  | cons a rest ih =>
    have hrest := ih fun b hb ↦ h b (List.mem_cons_of_mem a hb)
    cases hkeep : keep a with
    | true => rw [List.filter_cons_of_pos hkeep, List.flatMap_cons, List.flatMap_cons, hrest]
    | false =>
      rw [List.filter_cons_of_neg (by simp [hkeep]), List.flatMap_cons, hrest,
        h a List.mem_cons_self hkeep, List.nil_append]

namespace Spot

theorem exposure_of_visible {hides : Bool} (h : c.visible = true) :
    Host.exposure hides s.layer c.layer = true := by
  rw [Host.exposure]
  exact Bool.or_eq_true_iff.mpr (Or.inr h)

theorem shownChildren_of_kind {hides : Bool} (h : s.kind ≠ .instanceLayer) :
    s.shownChildren (Host.exposure hides) = s.children := by
  refine List.filter_eq_self.mpr fun c _ ↦ ?_
  have hkind : (s.layer.kind == .instanceLayer) = false := beq_eq_false_iff_ne.mpr h
  simp [Host.exposure, hkind]

/-- Where nothing is taken from invisible children it does not matter whether they are shown. -/
theorem flatMap_shownChildren {α : Type} {hides : Bool} {f : Spot → List α}
    (h : ∀ c ∈ s.children, c.visible = false → f c = []) :
    (s.shownChildren (Host.exposure hides)).flatMap f = s.children.flatMap f := by
  refine flatMap_filter_of_eq_nil fun c hc hhidden ↦ h c hc ?_
  by_contra hvisible
  rw [exposure_of_visible (by simpa using hvisible)] at hhidden
  cases hhidden

/-- A walk without hidden parts goes the same way whether invisible children are shown or not. -/
theorem IsTree.descendants_exposure (ht : r.IsTree) (hs : r.Reaches s) (hides : Bool) :
    s.descendants (Host.exposure hides) (!·.visible) =
      s.descendants .everything (!·.visible) := by
  refine ht.induction_below (fun s hs ih ↦ ?_) hs
  rw [← Host.exposure_false]
  rw [ht.descendants_eq hs, ht.descendants_eq hs]
  have hpart : ∀ hides, ∀ c ∈ s.children, c.visible = false →
      c.part (Host.exposure hides) (!·.visible) = [] := by
    intro hides c hc hhidden
    rw [ht.part_eq (hs.child hc)]
    simp [hhidden]
  rw [flatMap_shownChildren (hpart hides), flatMap_shownChildren (hpart false)]
  refine List.flatMap_congr fun c hc ↦ ?_
  rw [ht.part_eq (hs.child hc), ht.part_eq (hs.child hc), ih c hc, Host.exposure_false]

end Spot

namespace Document.Orderly

variable {d : Document}

/-- Below a node that holds only layers a lookup from above leaves the same nodes visible whether
invisible children are shown or not. -/
theorem filter_isEffectivelyVisible_exposure_of_holds (hd : d.Orderly) (hs : d.root.Holds s)
    (hides : Bool) :
    (s.descendants (Host.exposure hides) fun _ ↦ false).filter
        (·.isEffectivelyVisible (some s)) =
      (s.descendants .everything fun _ ↦ false).filter (·.isEffectivelyVisible (some s)) := by
  have hlayers := hd.holdsOnlyLayers hs
  rw [hd.tree.filter_isEffectivelyVisible hs.reaches hlayers,
    hd.tree.filter_isEffectivelyVisible hs.reaches hlayers, hd.tree.descendants_exposure hs.reaches]

/-- Seen from its parent, what is visible below a node is what is visible from the node itself, if
the node is. -/
theorem filter_isEffectivelyVisible_parent (hd : d.Orderly) (hs : d.Has s) (hc : c ∈ s.children)
    {shown : Exposure} :
    (c.descendants shown fun _ ↦ false).filter (·.isEffectivelyVisible (some s)) =
      ((c.descendants shown fun _ ↦ false).filter (·.isEffectivelyVisible (some c))).filter
        fun _ ↦ c.kind.isRootLike || c.visible := by
  have hlayers := hd.holdsOnlyLayers (Spot.holds_iff_exists_parent.mpr ⟨s, hs, hc⟩)
  rw [List.filter_filter]
  refine List.filter_congr fun t ht ↦ ?_
  exact hd.tree.isEffectivelyVisible_eq hs hc hlayers
    (hd.tree.holds_of_mem_descendants (hs.child hc) ht).reaches

/-- A lookup from above leaves the same nodes visible whether invisible children are shown or not,
also below the root of the document. -/
theorem filter_isEffectivelyVisible_exposure (hd : d.Orderly) (hs : d.Has s) (hides : Bool) :
    (s.descendants (Host.exposure hides) fun _ ↦ false).filter
        (·.isEffectivelyVisible (some s)) =
      (s.descendants .everything fun _ ↦ false).filter (·.isEffectivelyVisible (some s)) := by
  by_cases hroot : s = d.root
  · -- the root is no instance, so its own children are shown; each of them holds only layers
    subst hroot
    have hkind : d.root.kind ≠ .instanceLayer := by
      rw [hd.kind_root]
      decide
    rw [← Host.exposure_false]
    rw [hd.tree.descendants_eq hs, hd.tree.descendants_eq hs, Spot.shownChildren_of_kind hkind,
      Spot.shownChildren_of_kind hkind, List.filter_flatMap, List.filter_flatMap]
    refine List.flatMap_congr fun c hc ↦ ?_
    have hmem : d.Has c := hs.child hc
    rw [hd.tree.part_eq hmem, hd.tree.part_eq hmem]
    simp only [Bool.false_eq_true, if_false, List.filter_cons]
    rw [hd.filter_isEffectivelyVisible_parent hs hc, hd.filter_isEffectivelyVisible_parent hs hc,
      hd.filter_isEffectivelyVisible_exposure_of_holds (.single hc), Host.exposure_false]
  · exact hd.filter_isEffectivelyVisible_exposure_of_holds (hs.holds_root hroot) hides

/-- The effectively visible children of a node do not depend on whether invisible ones are shown. -/
theorem filter_shownChildren (hd : d.Orderly) (hs : d.Has s) (hides : Bool) {keep : Spot → Bool}
    (hkeep : ∀ c ∈ s.children, keep c = true → c.isEffectivelyVisible (some s) = true) :
    (s.shownChildren (Host.exposure hides)).filter keep = s.children.filter keep := by
  by_cases hkind : s.kind = .instanceLayer
  · have hlayers := hd.holdsOnlyLayers_of_kind hs (by rw [hkind]; decide)
    rw [Spot.shownChildren, List.filter_filter]
    refine List.filter_congr fun c hc ↦ ?_
    cases hk : keep c with
    | false => rfl
    | true =>
      have hvisible := hkeep c hc hk
      rw [hd.tree.isEffectivelyVisible_child hs hc (hlayers.of_mem_children hc),
        hlayers c (.single hc), Bool.false_or] at hvisible
      rw [Spot.exposure_of_visible hvisible, Bool.and_true]
  · rw [Spot.shownChildren_of_kind hkind]

end Document.Orderly

end SceneSearch
