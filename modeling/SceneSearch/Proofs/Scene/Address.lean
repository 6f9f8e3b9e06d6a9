import Mathlib.Data.List.Lex
import SceneSearch.Proofs.Scene.Descent

/-!
# Addresses in a tree

An address is read off the way up: from each node on it the position among the children of the next.
Where links were changed this is not the address at which the tree was loaded, and a node that was
moved may get the address that another one had. But in a tree no two nodes have one address: equal
addresses end in equal positions below parents of equal addresses.

So addresses tell all that there is to say about where two nodes stand. A node is at or below
another one if its address starts with the address of that one, the nearest common ancestor has what
their addresses have in front in common, and the lexicographic order of addresses is the order of
the document.
-/

namespace SceneSearch

theorem rel_of_pairwise {α : Type} {R : α → α → Prop} {items : List α} (h : items.Pairwise R)
    {i j : Nat} {a b : α} (hij : i < j) (ha : items[i]? = some a) (hb : items[j]? = some b) :
    R a b := by
  obtain ⟨hi, rfl⟩ := List.getElem?_eq_some_iff.mp ha
  obtain ⟨hj, rfl⟩ := List.getElem?_eq_some_iff.mp hb
  exact List.pairwise_iff_getElem.mp h i j hi hj hij

namespace Spot

private theorem pairwise_idxOf_place {scene : Scene} {places : List Place}
    (hnodup : (places.filterMap scene.at?).Nodup) :
    (places.filterMap scene.at?).Pairwise fun c d ↦
      places.idxOf c.place < places.idxOf d.place := by
  have hat {c : Spot} {places : List Place} (hc : c ∈ places.filterMap scene.at?) :
      scene.at? c.place = some c := by
    obtain ⟨q, -, hq⟩ := List.mem_filterMap.mp hc
    rwa [(Scene.scene_and_place_of_at? hq).2]
  induction places with
  | nil => exact .nil
  | cons p rest ih =>
    -- what follows the first place stands at another one, and one position later
    have hlater {c : Spot} (hne : c.place ≠ p) :
        (p :: rest).idxOf c.place = rest.idxOf c.place + 1 := List.idxOf_cons_ne _ hne.symm
    cases hp : scene.at? p with
    | none =>
      have hne {c : Spot} (hc : c ∈ rest.filterMap scene.at?) : c.place ≠ p := by
        rintro rfl
        rw [hat hc] at hp
        cases hp
      rw [List.filterMap_cons_none hp] at hnodup ⊢
      refine (ih hnodup).imp_of_mem fun hc hd hlt ↦ ?_
      rw [hlater (hne hc), hlater (hne hd)]
      exact Nat.succ_lt_succ hlt
    | some first =>
      rw [List.filterMap_cons_some hp] at hnodup ⊢
      obtain ⟨hfirst, hrest⟩ := List.nodup_cons.mp hnodup
      have hne {c : Spot} (hc : c ∈ rest.filterMap scene.at?) : c.place ≠ p := by
        rintro rfl
        obtain rfl : c = first := Option.some.inj ((hat hc).symm.trans hp)
        exact hfirst hc
      refine List.pairwise_cons.mpr ⟨fun c hc ↦ ?_, (ih hrest).imp_of_mem fun hc hd hlt ↦ ?_⟩
      · rw [(Scene.scene_and_place_of_at? hp).2, List.idxOf_cons_self, hlater (hne hc)]
        exact Nat.succ_pos _
      · rw [hlater (hne hc), hlater (hne hd)]
        exact Nat.succ_lt_succ hlt

namespace IsTree

variable {r s t c d : Spot}

theorem root_eq (ht : r.IsTree) (hs : r.Reaches s) : s.root = r := by
  induction hs with
  | refl => simp [root, chain, ht.ancestors_root]
  | @tail p c hp hc ih =>
    simp only [root, ht.chain_of_mem_children hp hc]
    rw [List.getLast_cons]
    exact ih

theorem address_root (ht : r.IsTree) : r.address = [] := by
  simp [address, ht.ancestors_root]

theorem address_of_mem_children (ht : r.IsTree) (hs : r.Reaches s) (hc : c ∈ s.children) :
    c.address = s.address ++ [c.positionIn s] := by
  rw [address, ht.chain_of_mem_children hs hc, ht.ancestors_of_mem_children hs hc,
    List.zip_cons_cons, List.map_cons, List.reverse_cons, address]

theorem pairwise_positionIn (ht : r.IsTree) (hs : r.Reaches s) :
    s.children.Pairwise fun c d ↦ c.positionIn s < d.positionIn s := by
  have hnodup := ht.nodup_children hs
  simp only [children, positionIn] at hnodup ⊢
  cases hlisted : s.listed? with
  | none =>
    refine List.pairwise_iff_getElem.mpr fun i j hi hj hij ↦ ?_
    simpa [ownChildren, child] using hij
  | some places =>
    rw [hlisted] at hnodup
    exact pairwise_idxOf_place hnodup

private theorem positionIn_inj (ht : r.IsTree) (hs : r.Reaches s) (hc : c ∈ s.children)
    (hd : d ∈ s.children) (h : c.positionIn s = d.positionIn s) : c = d := by
  have hnodup : (s.children.map fun c ↦ c.positionIn s).Nodup :=
    List.pairwise_map.mpr ((ht.pairwise_positionIn hs).imp Nat.ne_of_lt)
  exact List.inj_on_of_nodup_map hnodup hc hd h

/-- **Nodes of a tree are told apart by their addresses.** -/
theorem address_inj (ht : r.IsTree) (hs : r.Reaches s) (hu : r.Reaches t)
    (h : s.address = t.address) : s = t := by
  induction hs generalizing t with
  | refl =>
    rcases hu.cases_tail with rfl | ⟨q, hq, hqt⟩
    · rfl
    · rw [ht.address_root, ht.address_of_mem_children hq hqt] at h
      simp at h
  | @tail p c hp hc ih =>
    rcases hu.cases_tail with rfl | ⟨q, hq, hqt⟩
    · rw [ht.address_root, ht.address_of_mem_children hp hc] at h
      simp at h
    · rw [ht.address_of_mem_children hp hc, ht.address_of_mem_children hq hqt] at h
      obtain ⟨habove, hposition⟩ := List.append_inj' h rfl
      obtain rfl := ih hq habove
      exact ht.positionIn_inj hp hc hqt (List.singleton_injective hposition)

/-! ## Prefixes -/

theorem exists_address_of_reaches (ht : r.IsTree) (hs : r.Reaches s) (hst : s.Reaches t) :
    ∃ way, t.address = s.address ++ way := by
  induction hst with
  | refl => exact ⟨[], (List.append_nil _).symm⟩
  | @tail p c hp hc ih =>
    obtain ⟨way, hway⟩ := ih
    refine ⟨way ++ [c.positionIn p], ?_⟩
    rw [ht.address_of_mem_children (hs.trans hp) hc, hway, List.append_assoc]

theorem exists_address_of_reaches_child (ht : r.IsTree) (hs : r.Reaches s) (hc : c ∈ s.children)
    (hct : c.Reaches t) : ∃ way, t.address = s.address ++ c.positionIn s :: way := by
  obtain ⟨way, hway⟩ := ht.exists_address_of_reaches (hs.child hc) hct
  refine ⟨way, ?_⟩
  rw [hway, ht.address_of_mem_children hs hc, List.append_assoc, List.singleton_append]

/-- What an address starts with is the address of a node on the way down. -/
theorem exists_of_isPrefix_address {p : List Nat} (ht : r.IsTree) (hs : r.Reaches s)
    (h : p <+: s.address) : ∃ a, r.Reaches a ∧ a.Reaches s ∧ a.address = p := by
  induction hs with
  | refl =>
    rw [ht.address_root, List.prefix_nil] at h
    exact ⟨r, .refl r, .refl r, ht.address_root.trans h.symm⟩
  | @tail q c hq hc ih =>
    have haddress := ht.address_of_mem_children hq hc
    rw [haddress, List.prefix_concat_iff] at h
    rcases h with h | h
    · exact ⟨c, hq.tail hc, .refl c, haddress.trans h.symm⟩
    · obtain ⟨a, ha, haq, hap⟩ := ih h
      exact ⟨a, ha, haq.child hc, hap⟩

/-- **Ancestors have prefixes.** A node is at or below those whose addresses its own starts with. -/
theorem address_isPrefix_iff (ht : r.IsTree) (hs : r.Reaches s) (hu : r.Reaches t) :
    s.address <+: t.address ↔ s.Reaches t := by
  constructor
  · intro h
    obtain ⟨a, ha, hat, haddress⟩ := ht.exists_of_isPrefix_address hu h
    rwa [← ht.address_inj ha hs haddress]
  · intro h
    obtain ⟨way, hway⟩ := ht.exists_address_of_reaches hs h
    exact ⟨way, hway.symm⟩

theorem isBelow_iff_address (ht : r.IsTree) (hs : r.Reaches s) (hu : r.Reaches t) :
    t.isBelow s = true ↔ s.address <+: t.address ∧ s.address ≠ t.address := by
  rw [ht.isBelow_iff hu hs, ht.address_isPrefix_iff hs hu]
  constructor
  · refine fun hholds ↦ ⟨hholds.reaches, fun haddress ↦ ht.not_holds_self hs ?_⟩
    rwa [← ht.address_inj hs hu haddress] at hholds
  · rintro ⟨hreach, hne⟩
    exact (reaches_iff_eq_or_holds.mp hreach).resolve_left fun h ↦ hne (h ▸ rfl)

/-! ## Common ancestors -/

variable {a b n : Spot}

theorem any_same_chain_iff (ht : r.IsTree) (hn : r.Reaches n) (ha : r.Reaches a) :
    a.chain.any n.same = true ↔ n.Reaches a := by
  rw [List.any_eq_true, reaches_iff_eq_or_holds]
  constructor
  · rintro ⟨t, hmem, hsame⟩
    rcases List.mem_cons.mp hmem with rfl | hmem
    · exact Or.inl ((ht.same_iff_eq hn ha).mp hsame).symm
    · obtain ⟨hu, hholds⟩ := (ht.mem_ancestors_iff ha).mp hmem
      obtain rfl := (ht.same_iff_eq hn hu).mp hsame
      exact Or.inr hholds
  · rintro (rfl | hholds)
    · exact ⟨a, List.mem_cons_self, same_iff.mpr rfl⟩
    · have hmem := (ht.mem_ancestors_iff ha).mpr ⟨hn, hholds⟩
      exact ⟨n, List.mem_cons_of_mem a hmem, same_iff.mpr rfl⟩

/-- Two nodes have a nearest common ancestor: it is at or above both, and below every other one. -/
theorem exists_commonAncestor? (ht : r.IsTree) (ha : r.Reaches a) (hb : r.Reaches b) :
    ∃ n, commonAncestor? a b = some n ∧ r.Reaches n ∧ n.Reaches a ∧ n.Reaches b ∧
      ∀ u, r.Reaches u → u.Reaches a → u.Reaches b → u.Reaches n := by
  rw [commonAncestor?]
  -- going up from `b`, the first node that is at or above `a`
  induction hb with
  | refl =>
    have hfound : a.chain.any r.same = true := (ht.any_same_chain_iff (.refl r) ha).mpr ha
    exact ⟨r, List.find?_cons_of_pos hfound, .refl r, ha, .refl r, fun u _ _ hur ↦ hur⟩
  | @tail p c hp hc ih =>
    have hchild : r.Reaches c := hp.tail hc
    rw [ht.chain_of_mem_children hp hc]
    by_cases hca : c.Reaches a
    · have hfound := (ht.any_same_chain_iff hchild ha).mpr hca
      exact ⟨c, List.find?_cons_of_pos hfound, hchild, hca, .refl c, fun u _ _ huc ↦ huc⟩
    · obtain ⟨n, hfind, hn, hna, hnp, hnearest⟩ := ih
      have hpast : ¬a.chain.any c.same = true := (ht.any_same_chain_iff hchild ha).not.mpr hca
      rw [List.find?_cons_of_neg (p := fun u : Spot ↦ a.chain.any u.same) hpast]
      refine ⟨n, hfind, hn, hna, hnp.child hc, fun u hu hua huc ↦ ?_⟩
      rcases reaches_iff_eq_or_holds.mp huc with rfl | hholds
      · exact absurd hua hca
      · obtain ⟨q, huq, hqc⟩ := holds_iff_exists_parent.mp hholds
        obtain rfl := ht.parent_unique hp (hu.trans huq) hc hqc
        exact hnearest u hu hua huq

/-- **The nearest common ancestor has the longest common prefix.** -/
theorem isPrefix_address_of_nearest {p : List Nat} (ht : r.IsTree) (ha : r.Reaches a)
    (hb : r.Reaches b) (hn : r.Reaches n)
    (hnearest : ∀ u, r.Reaches u → u.Reaches a → u.Reaches b → u.Reaches n)
    (hpa : p <+: a.address) (hpb : p <+: b.address) : p <+: n.address := by
  obtain ⟨u, hu, hub, rfl⟩ := ht.exists_of_isPrefix_address hb hpb
  have hua := (ht.address_isPrefix_iff hu ha).mp hpa
  exact (ht.address_isPrefix_iff hu hn).mpr (hnearest u hu hua hub)

/-- Nodes of which none is at or below the other one are below different children of their nearest
common ancestor. -/
theorem exists_children_of_nearest (ht : r.IsTree) (hn : r.Reaches n) (hna : n.Reaches a)
    (hnb : n.Reaches b)
    (hnearest : ∀ u, r.Reaches u → u.Reaches a → u.Reaches b → u.Reaches n)
    (hab : ¬a.Reaches b) (hba : ¬b.Reaches a) :
    ∃ c ∈ n.children, ∃ d ∈ n.children, c.Reaches a ∧ d.Reaches b ∧ c ≠ d := by
  have hholds {u v : Spot} (hnu : n.Reaches u) (hnv : n.Reaches v) (huv : ¬u.Reaches v) :
      n.Holds u := by
    refine (reaches_iff_eq_or_holds.mp hnu).resolve_left ?_
    rintro rfl
    exact huv hnv
  obtain ⟨c, hc, hca⟩ := holds_iff_exists_child.mp (hholds hna hnb hab)
  obtain ⟨d, hd, hdb⟩ := holds_iff_exists_child.mp (hholds hnb hna hba)
  refine ⟨c, hc, d, hd, hca, hdb, ?_⟩
  rintro rfl
  have hcn := hnearest c (hn.child hc) hca hdb
  exact ht.not_holds_self hn (holds_iff_exists_child.mpr ⟨c, hc, hcn⟩)

/-! ## Document order -/

private theorem address_lt_of_reaches_child (ht : r.IsTree) (hs : r.Reaches s) (hc : c ∈ s.children)
    (hct : c.Reaches t) : s.address < t.address := by
  obtain ⟨way, hway⟩ := ht.exists_address_of_reaches_child hs hc hct
  rw [hway]
  conv_lhs => rw [← List.append_nil s.address]
  exact List.append_left_lt (List.nil_lt_cons _ _)

private theorem address_lt_of_positionIn_lt (ht : r.IsTree) (hs : r.Reaches s) (hc : c ∈ s.children)
    (hd : d ∈ s.children) (hlt : c.positionIn s < d.positionIn s) (hca : c.Reaches a)
    (hdb : d.Reaches b) : a.address < b.address := by
  obtain ⟨way, hway⟩ := ht.exists_address_of_reaches_child hs hc hca
  obtain ⟨way', hway'⟩ := ht.exists_address_of_reaches_child hs hd hdb
  rw [hway, hway']
  exact List.append_left_lt (List.cons_lt_cons_iff.mpr (Or.inl hlt))

private theorem pairwise_address (ht : r.IsTree) (hs : r.Reaches s) :
    s.subtree.Pairwise fun a b ↦ a.address < b.address := by
  refine ht.induction_below (fun s hs ih ↦ ?_) hs
  have hreach : ∀ {c t}, c ∈ s.children → t ∈ c.subtree → c.Reaches t := fun hc hmem ↦
    (ht.mem_subtree_iff (hs.child hc)).mp hmem
  rw [ht.subtree_eq hs, ht.descendants_everything_eq hs]
  refine List.pairwise_cons.mpr ⟨fun t hmem ↦ ?_, List.pairwise_flatMap.mpr ⟨ih, ?_⟩⟩
  · obtain ⟨c, hc, hct⟩ := List.mem_flatMap.mp hmem
    exact ht.address_lt_of_reaches_child hs hc (hreach hc hct)
  · refine (ht.pairwise_positionIn hs).imp_of_mem fun hc hd hlt a ha b hb ↦ ?_
    exact ht.address_lt_of_positionIn_lt hs hc hd hlt (hreach hc ha) (hreach hd hb)

/-- **The lexicographic order of addresses is document order.** -/
theorem address_lt_iff (ht : r.IsTree) (ha : r.Reaches a) (hb : r.Reaches b) :
    a.address < b.address ↔
      ∃ i j : Nat, i < j ∧ r.subtree[i]? = some a ∧ r.subtree[j]? = some b := by
  have hascend := ht.pairwise_address (.refl r)
  constructor
  · intro hlt
    obtain ⟨i, hi⟩ := List.mem_iff_getElem?.mp ((ht.mem_subtree_iff (.refl r)).mpr ha)
    obtain ⟨j, hj⟩ := List.mem_iff_getElem?.mp ((ht.mem_subtree_iff (.refl r)).mpr hb)
    refine ⟨i, j, ?_, hi, hj⟩
    rcases Nat.lt_trichotomy i j with hij | rfl | hji
    · exact hij
    · obtain rfl := Option.some.inj (hi.symm.trans hj)
      exact absurd hlt (lt_irrefl a.address)
    · exact absurd (rel_of_pairwise hascend hji hj hi) (lt_asymm hlt)
  · rintro ⟨i, j, hij, hi, hj⟩
    exact rel_of_pairwise hascend hij hi hj

end IsTree

end Spot

end SceneSearch
