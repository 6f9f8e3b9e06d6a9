import SceneSearch.Proofs.Search.Visits

/-!
# Walks are recursions

A walk keeps a list of what waits to be visited, and goes wherever it is shown children. Below a
node that lists a tree this comes to the same as a recursion over the children: a node, what is
below it, and then the next child. It does not matter which children are shown, nor what is left
out, nor which parents the nodes have, so all of this holds of `Spot.IsSubtree`. What a walk leaves
out with a node is what is shown below that node, and nothing else.

A host goes through the nodes that it shows in the same way to find those of some kinds. Each node
on the way is one visit, which is made before the children of the node are asked for.
-/

namespace SceneSearch

variable {s t : Spot}

/-! ## The recursion -/

/-- What is shown strictly below a node: the shown children in turn, each of them followed by what
is shown below it, without those that `prune` names and without what is below them. -/
def Spot.preorderBelow (shown : Exposure) (prune : Spot → Bool) (s : Spot) (hs : s.Grounded) :
    List Spot :=
  (s.shownChildren shown).attach.flatMap fun c ↦
    if prune c.1 then []
    else c.1 :: preorderBelow shown prune c.1 (hs.child (mem_children_of_mem_shownChildren c.2))
termination_by (⟨s, hs⟩ : {s : Spot // Acc (fun c s ↦ c ∈ s.children) s})
decreasing_by exact mem_children_of_mem_shownChildren c.2

theorem Spot.IsSubtree.descendants_eq_preorderBelow {shown : Exposure} {prune : Spot → Bool}
    (hs : s.IsSubtree) : ∀ hg : s.Grounded,
      s.descendants shown prune = s.preorderBelow shown prune hg := by
  refine hs.induction_below fun s hs ih hg ↦ ?_
  have hattach : (s.shownChildren shown).flatMap (part shown prune) =
      (s.shownChildren shown).attach.flatMap fun c ↦ c.1.part shown prune := by
    rw [← List.flatMap_map Subtype.val, List.attach_map_subtype_val]
  rw [hs.descendants_eq, preorderBelow, hattach]
  refine List.flatMap_congr fun c _ ↦ ?_
  have hc := mem_children_of_mem_shownChildren c.2
  rw [(hs.child hc).part_eq, ih c hc (hg.child hc)]

/-! ## The events of a walk -/

/-- A walk that is not ended early visits every node that it goes through, and then asks for the
children of that node. -/
theorem Host.events_lookAmong (hides : Bool) (prune keep : Spot → Bool) (steps : Nat)
    (kept waiting : List Spot) :
    (lookAmong hides false prune keep steps kept waiting).events =
      (walk (Spot.shownChildren (exposure hides)) (fun a ↦ if prune a then none else some [a])
        steps waiting).flatMap fun _ ↦ [.visit, .request hides] := by
  induction steps generalizing kept waiting with
  | zero => rfl
  | succ steps ih =>
    cases waiting with
    | nil => rfl
    | cons s waiting =>
      rw [lookAmong, walk]
      by_cases hprune : prune s = true
      · simp only [hprune, if_true, ih]
      · simp [hprune, Trace.events, ih]

theorem Host.events_lookBelow (host : Host) (prune keep : Spot → Bool) (s : Spot) :
    (host.lookBelow false prune keep s).events =
      .request host.skipsInstanceChildren :: (s.descendants host.shown prune).flatMap fun _ ↦
        [.visit, .request host.skipsInstanceChildren] :=
  congrArg (Event.request host.skipsInstanceChildren :: ·) (events_lookAmong ..)

/-! ## Walks and their recursions -/

/-- **Walks are recursions.** Where a node lists a tree, whatever parents its nodes have, a walk
below it comes by what the recursion gives, whichever children are shown and whatever is left out.
It comes by no node twice. Of a walk that leaves nothing out it keeps the order, and loses the nodes
that `prune` names with what is shown below them, and nothing else. What a host finds are the nodes
of some kinds among all that it shows, in that order, and each node that it shows is one visit. -/
theorem Spot.IsSubtree.walks_are_recursions (hs : s.IsSubtree) (shown : Exposure)
    (prune : Spot → Bool) :
    s.descendants shown prune = s.preorderBelow shown prune hs.grounded ∧
      (s.descendants shown prune).Nodup ∧
      (s.descendants shown prune).Sublist (s.descendants shown fun _ ↦ false) ∧
      (∀ t, t ∈ s.descendants shown prune ↔ t ∈ (s.descendants shown fun _ ↦ false) ∧
        ∀ u ∈ s.descendants shown fun _ ↦ false,
          t = u ∨ t ∈ (u.descendants shown fun _ ↦ false) → prune u = false) ∧
      ∀ (host : Host) (kinds : List NodeKind),
        let all := s.preorderBelow host.shown (fun _ ↦ false) hs.grounded
        (host.findAll s kinds).result = .ok (all.filter fun t ↦ kinds.contains t.kind) ∧
          (host.findAll s kinds).visits = all.length ∧
          (host.findAll s kinds).events =
            .request host.skipsInstanceChildren :: all.flatMap fun _ ↦
              [.visit, .request host.skipsInstanceChildren] := by
  refine ⟨hs.descendants_eq_preorderBelow _, hs.nodup_descendants,
    hs.descendants_sublist_of_prune fun _ _ ↦ rfl, fun t ↦ hs.mem_descendants_iff_unpruned,
    fun host kinds ↦ ?_⟩
  simp only [← hs.descendants_eq_preorderBelow]
  refine ⟨Host.result_lookBelow .., ?_, host.events_lookBelow ..⟩
  rw [Host.findAll, Host.visits_lookBelow, goneThrough_false]

/-- For instance a page with a card: the hidden caption on it is left out, but a host that is asked
for texts visits it and finds it. -/
theorem Spot.IsSubtree.walks_are_recursions_cards :
    ∃ hs : Document.cardPage.IsSubtree,
      (Document.cardPage.preorderBelow .everything (!·.visible) hs.grounded).map Spot.id =
          ["1:2", "1:3"] ∧
        (Host.ofCards.findAll Document.cardPage [.text]).visits =
          (Document.cardPage.preorderBelow Host.ofCards.shown (fun _ ↦ false) hs.grounded).length ∧
        (Host.ofCards.findAll Document.cardPage [.text]).visits = 3 := by
  have hpage : Document.cards.root.Reaches Document.cardPage :=
    (Reaches.refl _).child (List.mem_singleton.mpr rfl)
  have hs := Document.orderly_cards.tree.isSubtree hpage
  obtain ⟨hwalk, -, -, -, hfind⟩ := hs.walks_are_recursions .everything (!·.visible)
  refine ⟨hs, ?_, (hfind Host.ofCards [.text]).2.1, by decide⟩
  rw [← hwalk]
  decide

end SceneSearch
