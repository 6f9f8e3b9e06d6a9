import SceneSearch.Proofs.Search.Nesting

/-!
# Starting scopes as outermost nodes

A search with a selection starts from the selected nodes and the containers that they are in, each
once and without those that another one holds. What is left out is not lost: going up from a node
of the list, there is a last one that is in the list, since a tree has a root, and nothing in the
list holds that one. So the scopes are an antichain that covers the list, `Covers`, and there is
only one such set of nodes. It depends neither on the order of the selection nor on the current
page, which a search falls back to only if nothing is selected.
-/

namespace SceneSearch

variable {r s t u : Spot} {spots scopes wanted selection : List Spot} {childSearch : Bool}

/-! ## Antichains -/

/-- The scopes are some of the wanted nodes, each once, such that none of them holds another one and
every wanted node is at or below one of them. -/
structure Covers (scopes wanted : List Spot) : Prop where
  /-- No node is a scope twice. -/
  nodup : scopes.Nodup
  /-- No scope holds another one. -/
  not_holds : ∀ s ∈ scopes, ∀ t ∈ scopes, ¬s.Holds t
  /-- Every scope is wanted. -/
  subset : scopes ⊆ wanted
  /-- Every wanted node is at or below a scope. -/
  reaches : ∀ t ∈ wanted, ∃ s ∈ scopes, s.Reaches t

namespace Covers

theorem ne_nil (h : Covers scopes wanted) (hwanted : wanted ≠ []) : scopes ≠ [] := by
  obtain ⟨t, ht⟩ := List.exists_mem_of_ne_nil wanted hwanted
  obtain ⟨s, hs, -⟩ := h.reaches t ht
  exact List.ne_nil_of_mem hs

private theorem eq_of_reaches (h : Covers scopes wanted) (hs : s ∈ scopes) (ht : t ∈ scopes)
    (hst : s.Reaches t) : t = s :=
  (Spot.reaches_iff_eq_or_holds.mp hst).resolve_right (h.not_holds s hs t ht)

private theorem subset_of_covers {others : List Spot} (ht : r.IsTree)
    (hwanted : ∀ s ∈ wanted, r.Reaches s)
    (h : Covers scopes wanted) (h' : Covers others wanted) : scopes ⊆ others := by
  intro s hs
  -- a scope is below one of the others, which is below a scope again
  obtain ⟨t, ht', hts⟩ := h'.reaches s (h.subset hs)
  obtain ⟨u, hu, hut⟩ := h.reaches t (h'.subset ht')
  obtain rfl := h.eq_of_reaches hu hs (hut.trans hts)
  rwa [ht.antisymm (hwanted s (h.subset hs)) hut hts]

/-- **Only one set of nodes covers a list.** -/
theorem mem_iff {others : List Spot} (ht : r.IsTree) (hwanted : ∀ s ∈ wanted, r.Reaches s)
    (h : Covers scopes wanted) (h' : Covers others wanted) : s ∈ others ↔ s ∈ scopes :=
  ⟨fun hs ↦ subset_of_covers ht hwanted h' h hs, fun hs ↦ subset_of_covers ht hwanted h h' hs⟩

private theorem congr {others : List Spot} (h : Covers scopes wanted)
    (hsame : ∀ s, s ∈ others ↔ s ∈ wanted) : Covers scopes others where
  nodup := h.nodup
  not_holds := h.not_holds
  subset := fun s hs ↦ (hsame s).mpr (h.subset hs)
  reaches := fun t ht ↦ h.reaches t ((hsame t).mp ht)

end Covers

/-! ## Pruning -/

theorem pruneNested_sublist (spots : List Spot) : (pruneNested spots).Sublist spots :=
  List.filter_sublist

/-- Nodes that nothing in the list holds are held by nothing that is kept of it. -/
theorem pruneNested_pruneNested (spots : List Spot) :
    pruneNested (pruneNested spots) = pruneNested spots := by
  refine List.filter_eq_self.mpr fun s hs ↦ ?_
  have hnone := (List.mem_filter.mp hs).2
  rw [Bool.not_eq_true', List.any_eq_false] at hnone ⊢
  exact fun u hu ↦ hnone u ((pruneNested_sublist spots).subset hu)

namespace Spot.IsTree

/-- **Nothing is lost**: what is at or below a node of the list is at or below one that is kept. -/
theorem exists_reaches_of_reaches (ht : r.IsTree) (hspots : ∀ s ∈ spots, r.Reaches s)
    (hs : r.Reaches s) (habove : ∃ t ∈ spots, t.Reaches s) :
    ∃ u ∈ pruneNested spots, u.Reaches s := by
  -- down from the root, the first node of the list on the way is held by no other one
  induction hs with
  | refl =>
    obtain ⟨t, hmem, htr⟩ := habove
    obtain rfl := ht.antisymm (.refl r) (hspots t hmem) htr
    refine ⟨r, (ht.mem_pruneNested_iff hspots).mpr ⟨hmem, fun u hu hur ↦ ?_⟩, .refl r⟩
    exact ht.not_holds_self (.refl r) (Relation.TransGen.trans_right (hspots u hu) hur)
  | @tail p c hp hc ih =>
    by_cases hholds : ∃ t ∈ spots, t.Holds c
    · obtain ⟨t, hmem, htc⟩ := hholds
      obtain ⟨q, htq, hqc⟩ := holds_iff_exists_parent.mp htc
      obtain rfl := ht.parent_unique hp ((hspots t hmem).trans htq) hc hqc
      obtain ⟨u, hu, hup⟩ := ih ⟨t, hmem, htq⟩
      exact ⟨u, hu, hup.child hc⟩
    · obtain ⟨t, hmem, htc⟩ := habove
      obtain rfl : c = t :=
        (reaches_iff_eq_or_holds.mp htc).resolve_right fun h ↦ hholds ⟨t, hmem, h⟩
      refine ⟨c, (ht.mem_pruneNested_iff hspots).mpr ⟨hmem, fun u hu huc ↦ ?_⟩, .refl c⟩
      exact hholds ⟨u, hu, huc⟩

private theorem covers_pruneNested (ht : r.IsTree) (hspots : ∀ s ∈ spots, r.Reaches s) :
    Covers (pruneNested (distinctSpots spots)) spots := by
  have hmem : ∀ {s}, s ∈ distinctSpots spots ↔ s ∈ spots := mem_distinctSpots_iff ht hspots
  have hdistinct : ∀ s ∈ distinctSpots spots, r.Reaches s := fun s hs ↦ hspots s (hmem.mp hs)
  have hkept : ∀ {s}, s ∈ pruneNested (distinctSpots spots) → s ∈ distinctSpots spots := fun hs ↦
    (pruneNested_sublist _).subset hs
  constructor
  · exact (nodup_distinctSpots spots).sublist (pruneNested_sublist _)
  · exact fun s hs t ht' ↦ ht.not_holds_of_mem_pruneNested (hdistinct t (hkept ht'))
      (hdistinct s (hkept hs)) (hkept hs) ht'
  · exact fun s hs ↦ hmem.mp (hkept hs)
  · exact fun t ht' ↦ ht.exists_reaches_of_reaches hdistinct (hspots t ht')
      ⟨t, hmem.mpr ht', .refl t⟩

end Spot.IsTree

/-! ## Starting scopes -/

/-- The selected nodes, each followed by the container it is in unless only children are
searched. -/
def wantedScopes (selection : List Spot) (childSearch : Bool) : List Spot :=
  selection.flatMap fun s ↦ s :: (if childSearch then [] else s.anchor?.toList)

theorem Spot.IsTree.reaches_of_mem_wantedScopes (ht : r.IsTree)
    (hselection : ∀ s ∈ selection, r.Reaches s) (h : t ∈ wantedScopes selection childSearch) :
    r.Reaches t := by
  obtain ⟨s, hs, ht'⟩ := List.mem_flatMap.mp h
  rcases List.mem_cons.mp ht' with rfl | ht'
  · exact hselection t hs
  · have hanchor : s.anchor? = some t := by
      cases childSearch with
      | true => cases ht'
      | false => simpa using ht'
    rcases List.mem_cons.mp (Document.anchor?_mem_chain hanchor) with rfl | habove
    · exact hselection t hs
    · exact ((ht.mem_ancestors_iff (hselection s hs)).mp habove).1

theorem Spot.IsTree.initialScopes_eq (ht : r.IsTree) (hselection : ∀ s ∈ selection, r.Reaches s)
    (hne : selection ≠ []) (page : Spot) (childSearch : Bool) :
    initialScopes page selection childSearch =
        pruneNested (distinctSpots (wantedScopes selection childSearch)) ∧
      Covers (initialScopes page selection childSearch) (wantedScopes selection childSearch) ∧
      initialScopes page selection childSearch ≠ [] := by
  have hcovers : Covers (pruneNested (distinctSpots (wantedScopes selection childSearch)))
      (wantedScopes selection childSearch) :=
    ht.covers_pruneNested fun t ↦ ht.reaches_of_mem_wantedScopes hselection
  have hwanted : wantedScopes selection childSearch ≠ [] := by
    obtain ⟨s, hs⟩ := List.exists_mem_of_ne_nil selection hne
    exact List.ne_nil_of_mem (List.mem_flatMap.mpr ⟨s, hs, List.mem_cons_self⟩)
  have hkept := hcovers.ne_nil hwanted
  have heq : initialScopes page selection childSearch =
      pruneNested (distinctSpots (wantedScopes selection childSearch)) := by
    rw [initialScopes, if_neg (by rwa [List.isEmpty_iff])]
    exact if_neg (by rwa [List.isEmpty_iff])
  rw [heq]
  exact ⟨rfl, hcovers, hkept⟩

/-- **Starting scopes are a covering antichain.** Where nodes of a tree are selected, in whatever
order and however often, the scopes are not the current page that a search falls back to, but what
pruning keeps of the selected nodes and, unless only children are searched, of the containers that
they are in: different nodes, none of which holds another one, at or above all the others. So as a
set they depend neither on the order of the selection nor on the page. Pruning keeps the order of
any nodes, and there is nothing to prune twice. -/
theorem Spot.IsTree.initialScopes_covers (ht : r.IsTree)
    (hselection : ∀ s ∈ selection, r.Reaches s) (hne : selection ≠ []) (page : Spot)
    (childSearch : Bool) :
    initialScopes page selection childSearch =
        pruneNested (distinctSpots (wantedScopes selection childSearch)) ∧
      initialScopes page selection childSearch ≠ [] ∧
      Covers (initialScopes page selection childSearch) (wantedScopes selection childSearch) ∧
      (∀ others : List Spot, others.Perm selection → ∀ page' s,
        s ∈ initialScopes page' others childSearch ↔
          s ∈ initialScopes page selection childSearch) ∧
      ∀ spots : List Spot,
        (pruneNested spots).Sublist spots ∧
          pruneNested (pruneNested spots) = pruneNested spots := by
  obtain ⟨heq, hcovers, hkept⟩ := ht.initialScopes_eq hselection hne page childSearch
  refine ⟨heq, hkept, hcovers, fun others hperm page' s ↦ ?_, fun spots ↦
    ⟨pruneNested_sublist spots, pruneNested_pruneNested spots⟩⟩
  have hothers : ∀ s ∈ others, r.Reaches s := fun s hs ↦ hselection s (hperm.subset hs)
  have hne' : others ≠ [] := fun h ↦ hne (List.nil_perm.mp (h ▸ hperm))
  obtain ⟨-, hcovers', -⟩ := ht.initialScopes_eq hothers hne' page' childSearch
  have hsame : ∀ s, s ∈ wantedScopes selection childSearch ↔ s ∈ wantedScopes others childSearch :=
    fun s ↦ (hperm.flatMap_right _).mem_iff.symm
  exact hcovers.mem_iff ht (fun t ↦ ht.reaches_of_mem_wantedScopes hselection)
    (hcovers'.congr hsame)

/-- For instance a title that is selected twice: the scope is the card that it is on, whichever
page is shown. -/
theorem Spot.IsTree.initialScopes_covers_cards :
    Document.cards.root.IsTree ∧
      (∀ s ∈ [Document.cardTitle, Document.cardTitle], Document.cards.root.Reaches s) ∧
      [Document.cardTitle, Document.cardTitle] ≠ [] ∧
      (initialScopes Document.cardPage [Document.cardTitle, Document.cardTitle] false).map
        Spot.place = [Document.card.place] ∧
      Covers (initialScopes Document.cardPage [Document.cardTitle, Document.cardTitle] false)
        (wantedScopes [Document.cardTitle, Document.cardTitle] false) := by
  have htree := Document.orderly_cards.tree
  have htitle : Document.cards.root.Reaches Document.cardTitle :=
    (((Spot.Reaches.refl _).child List.mem_cons_self).child List.mem_cons_self).child
      List.mem_cons_self
  have hselection : ∀ s ∈ [Document.cardTitle, Document.cardTitle],
      Document.cards.root.Reaches s := by
    simpa using htitle
  obtain ⟨-, -, hcovers, -, -⟩ :=
    htree.initialScopes_covers hselection (by simp) Document.cardPage false
  exact ⟨htree, hselection, by simp, by decide, hcovers⟩

end SceneSearch
