import SceneSearch.Proofs.Search.FrontFirst

/-!
# Where two ways part

Nodes are ordered and picked by their addresses, without a walk through the tree. That is right
because an address is as good as the node: it tells which node it is, what the node is below, and
where it comes in the document. Two nodes of which none is an ancestor of the other one are below
different children of their nearest common ancestor. That is where the ways down to them part, and
there paint order decides: the later of the two children is in front.
-/

namespace SceneSearch

namespace Spot.IsTree

open VisualOrder hiding compare

variable {r a b c d n : Spot}

private theorem comparePaintOrder_of_children {i j : Nat} (ht : r.IsTree) (hn : r.Reaches n)
    (hi : n.children[i]? = some c) (hj : n.children[j]? = some d) (hca : c.Reaches a)
    (hdb : d.Reaches b) (hne : i ≠ j) : comparePaintOrder a b = compare j i := by
  have hc : c ∈ n.children := List.mem_of_getElem? hi
  have hd : d ∈ n.children := List.mem_of_getElem? hj
  have hascend := ht.pairwise_positionIn hn
  rw [comparePaintOrder_eq ht ((hn.child hc).trans hca) ((hn.child hd).trans hdb)]
  rcases Nat.lt_or_gt_of_ne hne with hij | hji
  · have hlt := rel_of_pairwise hascend hij hi hj
    have hbefore := ht.compare_frontness_of_positionIn_lt hn hd hc hlt hdb hca
    rw [Std.OrientedCmp.gt_of_lt hbefore, Nat.compare_eq_gt.mpr hij]
  · have hlt := rel_of_pairwise hascend hji hj hi
    rw [ht.compare_frontness_of_positionIn_lt hn hc hd hlt hca hdb, Nat.compare_eq_lt.mpr hji]

/-- **Addresses are faithful.** Nodes of a tree are told apart by their addresses. A node is a
strict ancestor of those whose addresses strictly go on from its own. Two nodes have a nearest
common ancestor, and its address is what their addresses have in front in common. The lexicographic
order of addresses is the order in which a walk from the root comes by the nodes. And of two nodes
of which none is an ancestor of the other one, paint order puts the one first that is below the
later child of their nearest common ancestor. -/
theorem addresses_are_faithful (ht : r.IsTree) (ha : r.Reaches a) (hb : r.Reaches b) :
    (a.address = b.address ↔ a = b) ∧
      (b.isBelow a = true ↔ a.address <+: b.address ∧ a.address ≠ b.address) ∧
      (a.address < b.address ↔
        ∃ i j : Nat, i < j ∧ r.subtree[i]? = some a ∧ r.subtree[j]? = some b) ∧
      ∃ n, commonAncestor? a b = some n ∧
        (n.address <+: a.address ∧ n.address <+: b.address ∧
          ∀ p, p <+: a.address → p <+: b.address → p <+: n.address) ∧
        (a.isBelow b = false → b.isBelow a = false →
          a = b ∨ ∃ (i j : Nat) (c d : Spot), n.children[i]? = some c ∧ n.children[j]? = some d ∧
            c.Reaches a ∧ d.Reaches b ∧ i ≠ j ∧ comparePaintOrder a b = compare j i) := by
  obtain ⟨n, hfind, hn, hna, hnb, hnearest⟩ := ht.exists_commonAncestor? ha hb
  refine ⟨⟨ht.address_inj ha hb, congrArg address⟩, ht.isBelow_iff_address ha hb,
    ht.address_lt_iff ha hb, n, hfind, ⟨?_, ?_, fun p hpa hpb ↦ ?_⟩, fun hab hba ↦ ?_⟩
  · exact (ht.address_isPrefix_iff hn ha).mpr hna
  · exact (ht.address_isPrefix_iff hn hb).mpr hnb
  · exact ht.isPrefix_address_of_nearest ha hb hn hnearest hpa hpb
  · refine or_iff_not_imp_left.mpr fun hne ↦ ?_
    have hnot {u v : Spot} (hu : r.Reaches u) (hv : r.Reaches v) (huv : u ≠ v)
        (hbelow : v.isBelow u = false) : ¬u.Reaches v := by
      intro hreach
      have hholds := (reaches_iff_eq_or_holds.mp hreach).resolve_left huv.symm
      exact Bool.eq_false_iff.mp hbelow ((ht.isBelow_iff hv hu).mpr hholds)
    obtain ⟨c, hc, d, hd, hca, hdb, hcd⟩ := ht.exists_children_of_nearest hn hna hnb hnearest
      (hnot ha hb hne hba) (hnot hb ha (Ne.symm hne) hab)
    obtain ⟨i, hi⟩ := List.mem_iff_getElem?.mp hc
    obtain ⟨j, hj⟩ := List.mem_iff_getElem?.mp hd
    have hij : i ≠ j := by
      rintro rfl
      exact hcd (Option.some.inj (hi.symm.trans hj))
    exact ⟨i, j, c, d, hi, hj, hca, hdb, hij,
      ht.comparePaintOrder_of_children hn hi hj hca hdb hij⟩

/-- For instance two tiles: they part at the page, which has the empty address; the first one comes
first in the document, and the second one is in front. -/
theorem addresses_are_faithful_tiles :
    Document.tiles.root.IsTree ∧ Document.tiles.root.Reaches Document.firstTile ∧
      Document.tiles.root.Reaches Document.secondTile ∧
      (∃ i j : Nat, i < j ∧ Document.tiles.root.subtree[i]? = some Document.firstTile ∧
        Document.tiles.root.subtree[j]? = some Document.secondTile) ∧
      (∃ n, commonAncestor? Document.firstTile Document.secondTile = some n ∧
        ∀ p, p <+: Document.firstTile.address → p <+: Document.secondTile.address →
          p <+: n.address) ∧
      comparePaintOrder Document.firstTile Document.secondTile = .gt := by
  have htree : Document.tiles.root.IsTree := Document.isTree_of_links_eq rfl
  have hfirst : Document.tiles.root.Reaches Document.firstTile :=
    (Reaches.refl _).child List.mem_cons_self
  have hsecond : Document.tiles.root.Reaches Document.secondTile :=
    (Reaches.refl _).child (List.mem_cons_of_mem _ List.mem_cons_self)
  obtain ⟨-, -, horder, n, hfind, ⟨-, -, hlongest⟩, -⟩ :=
    htree.addresses_are_faithful hfirst hsecond
  exact ⟨htree, hfirst, hsecond, horder.mp (by decide), ⟨n, hfind, hlongest⟩, by decide⟩

end Spot.IsTree

end SceneSearch
