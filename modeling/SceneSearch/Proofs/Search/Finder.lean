import SceneSearch.Proofs.Search.Answer

/-!
# Three ways below a scope

A host is searched below a scope through its children, through a bulk lookup or node by node. On an
orderly document the last two find the same in the same order below every scope but the root, and no
search of visible layers depends on whether the host hides the invisible children of instances.
Scopes are nodes of the document as long as the host shows such; and they are not the root unless
the root is selected or shown as a page.
-/

namespace SceneSearch

open Evaluation

variable {d : Document} {r s t : Spot} {segment : SegmentPlan} {matcher : NameMatcher}
  {host : Host} {bulk : Bool}

namespace Evaluation

/-! ## Matches are at or below their scope -/

theorem eq_of_mem_ownMatches (h : t ∈ ownMatches segment matcher s) : t = s := by
  have hmem := (List.mem_filter.mp h).1
  split at hmem
  · cases hmem
  · simpa using hmem

theorem holds_of_mem_matchesBelow (ht : r.IsTree) (hs : r.Reaches s)
    (h : t ∈ matchesBelow segment matcher s bulk host) : s.Holds t := by
  rw [matchesBelow] at h
  split at h
  · exact .single (Spot.mem_children_of_mem_shownChildren (List.mem_filter.mp h).1)
  · split at h
    · have hmem := (List.mem_filter.mp (List.mem_filter.mp h).1).1
      exact ht.holds_of_mem_descendants hs (List.mem_filter.mp hmem).1
    · exact ht.holds_of_mem_descendants hs (List.mem_filter.mp h).1

theorem reaches_of_mem_finder {allowSelf : Bool} (ht : r.IsTree) (hs : r.Reaches s)
    (h : t ∈ finder bulk host segment allowSelf s) : s.Reaches t := by
  rcases List.mem_append.mp h with h | h
  · split at h
    · rw [eq_of_mem_ownMatches h]
      exact .refl s
    · cases h
  · exact (holds_of_mem_matchesBelow ht hs h).reaches

theorem exists_scope_of_mem_flatMap {scopes : List Spot} {allowSelf : Bool} (ht : r.IsTree)
    (hscopes : ∀ s ∈ scopes, r.Reaches s)
    (h : t ∈ scopes.flatMap (finder bulk host segment allowSelf)) :
    ∃ s ∈ scopes, s.Reaches t := by
  obtain ⟨s, hs, h⟩ := List.mem_flatMap.mp h
  exact ⟨s, hs, reaches_of_mem_finder ht (hscopes s hs) h⟩

theorem reaches_of_mem_flatMap {scopes : List Spot} {allowSelf : Bool} (ht : r.IsTree)
    (hscopes : ∀ s ∈ scopes, r.Reaches s)
    (h : t ∈ scopes.flatMap (finder bulk host segment allowSelf)) : r.Reaches t := by
  obtain ⟨s, hs, hst⟩ := exists_scope_of_mem_flatMap ht hscopes h
  exact (hscopes s hs).trans hst

/-! ## Going down and looking up -/

/-- A bulk lookup finds what a walk does below a scope that holds only layers. -/
theorem lookup_eq_walkMatches (ht : r.IsTree) (hs : r.Reaches s) (hlayers : s.HoldsOnlyLayers)
    {kinds : List NodeKind} (h : bulkKinds? bulk segment = some kinds) :
    ((host.lookup s kinds).filter fun t ↦ matcher.accepts t.name) =
      walkMatches segment matcher s host := by
  rw [bulkKinds?] at h
  split at h
  · rename_i hmode
    have hdefault : segment.visibility = .default := by
      simp only [Bool.and_eq_true] at hmode
      simpa [VisibilityMode.prunesHidden] using hmode.1.2
    have hkinds : ∀ t : Spot, segment.symbol.admits t.layer = kinds.contains t.kind := fun t ↦
      TypeSymbol.admits_eq_contains h t.layer
    have hlookup : host.lookup s kinds =
        (s.descendants host.shown (!·.visible)).filter fun t ↦ kinds.contains t.kind := by
      rw [Host.lookup, List.filter_comm, ht.filter_isEffectivelyVisible hs hlayers]
    rw [hlookup, List.filter_filter, walkMatches, hdefault]
    refine List.filter_congr fun t _ ↦ ?_
    rw [fits, hkinds t, Bool.and_comm]
    rfl
  · cases h

private theorem matchesBelow_bulk_eq (ht : r.IsTree) (hs : r.Reaches s)
    (hlayers : s.HoldsOnlyLayers) :
    matchesBelow segment matcher s true host = matchesBelow segment matcher s false host := by
  have hwalk : bulkKinds? false segment = none := by simp [bulkKinds?]
  rw [matchesBelow, matchesBelow, hwalk]
  cases hkinds : bulkKinds? true segment with
  | none => rfl
  | some kinds => simp only [lookup_eq_walkMatches ht hs hlayers hkinds]

private theorem finder_bulk_eq {allowSelf : Bool} (ht : r.IsTree) (hs : r.Reaches s)
    (hlayers : s.HoldsOnlyLayers) :
    finder true host segment allowSelf s = finder false host segment allowSelf s := by
  rw [finder, finder, matchesBelow_bulk_eq ht hs hlayers]

end Evaluation

/-! ## Invisible children of instances -/

namespace Document.Orderly

theorem childMatches_eq (hd : d.Orderly) (hs : d.Has s) (hdefault : segment.visibility = .default) :
    childMatches segment matcher s host =
      s.children.filter fun t ↦ fits segment matcher t && t.isEffectivelyVisible (some s) := by
  rw [childMatches, hdefault]
  refine hd.filter_shownChildren hs _ fun c _ hc ↦ ?_
  exact (Bool.and_eq_true_iff.mp hc).2

private theorem lookup_eq (hd : d.Orderly) (hs : d.Has s) (kinds : List NodeKind) :
    host.lookup s kinds =
      ((s.descendants .everything fun _ ↦ false).filter (·.isEffectivelyVisible (some s))).filter
        fun t ↦ kinds.contains t.kind := by
  rw [Host.lookup, List.filter_comm, Host.shown, hd.filter_isEffectivelyVisible_exposure hs]

theorem walkMatches_eq (hd : d.Orderly) (hs : d.Has s) (hdefault : segment.visibility = .default) :
    walkMatches segment matcher s host =
      (s.descendants .everything (!·.visible)).filter (fits segment matcher) := by
  rw [walkMatches, hdefault, Host.shown]
  exact congrArg _ (hd.tree.descendants_exposure hs _)

theorem finder_agreesOn (hd : d.Orderly) (hdefault : segment.visibility = .default)
    (host other : Host) : (finder bulk host).AgreesOn (finder bulk other) d.Has segment := by
  intro allowSelf s hs
  simp only [finder, matchesBelow, hd.childMatches_eq hs hdefault, hd.lookup_eq hs,
    hd.walkMatches_eq hs hdefault]

theorem finder_staysIn_holds (hd : d.Orderly) :
    (finder bulk host).StaysIn d.root.Holds segment := fun _ _ hs _ ht ↦
  Relation.TransGen.trans_left hs (reaches_of_mem_finder hd.tree hs.reaches ht)

theorem finder_bulk_agreesOn (hd : d.Orderly) :
    (finder true host).AgreesOn (finder false host) d.root.Holds segment := fun _ _ hs ↦
  finder_bulk_eq hd.tree hs.reaches (hd.holdsOnlyLayers hs)

end Document.Orderly

theorem Document.Labelled.finder_staysIn (hd : d.Labelled) :
    (finder bulk host).StaysIn d.Has segment :=
  fun _ _ hs _ ht ↦ hs.trans (reaches_of_mem_finder hd.tree hs ht)

/-! ## Scopes -/

namespace Document

theorem holds_of_mem_pages (h : t ∈ d.pages) : d.root.Holds t :=
  .single (List.mem_filter.mp h).1

variable {host : Host}

theorem has_of_mem_chain (hd : d.Labelled) (hs : d.Has s) (h : t ∈ s.chain) : d.Has t := by
  rcases List.mem_cons.mp h with rfl | h
  · exact hs
  · exact ((hd.tree.mem_ancestors_iff hs).mp h).1

theorem anchor?_mem_chain (h : s.anchor? = some t) : t ∈ s.chain :=
  (List.takeWhile_subset _) (List.mem_of_find?_eq_some h)

private theorem anchor?_ne_root (hd : d.Orderly) (h : s.anchor? = some t) : t ≠ d.root := by
  refine hd.ne_root_of_kind fun hkind ↦ ?_
  have hanchor := List.find?_some h
  rw [hkind] at hanchor
  exact absurd hanchor (by decide)

/-- A scope is the current page, or it is selected, or it is a container of something selected. -/
theorem mem_scopes {childSearch : Bool} (h : s ∈ host.scopes childSearch) :
    s = host.currentPage ∨ s ∈ host.selection ∨ ∃ t ∈ host.selection, t.anchor? = some s := by
  have hwanted : ∀ t ∈ host.selection.flatMap
      (fun s ↦ s :: (if childSearch then [] else s.anchor?.toList)),
      t ∈ host.selection ∨ ∃ s ∈ host.selection, s.anchor? = some t := by
    intro t ht
    obtain ⟨s, hs, ht⟩ := List.mem_flatMap.mp ht
    rcases List.mem_cons.mp ht with rfl | ht
    · exact Or.inl hs
    · cases childSearch with
      | true => cases ht
      | false => exact Or.inr ⟨s, hs, by simpa using ht⟩
  rw [Host.scopes, initialScopes] at h
  generalize host.selection.flatMap
    (fun s ↦ s :: (if childSearch then [] else s.anchor?.toList)) = wanted at h hwanted
  split at h
  · exact Or.inl (by simpa using h)
  · dsimp only at h
    split at h
    · exact Or.inl (by simpa using h)
    · exact Or.inr (hwanted s (mem_of_firstOccurrences (List.mem_filter.mp h).1))

end Document

section

variable {childSearch : Bool}

theorem Host.Labelled.has_of_mem_scopes (hh : host.Labelled) (h : s ∈ host.scopes childSearch) :
    host.document.Has s := by
  rcases Document.mem_scopes h with rfl | hs | ⟨t, ht, hs⟩
  · exact hh.currentPage
  · exact hh.selection s hs
  · exact Document.has_of_mem_chain hh.document (hh.selection t ht)
      (Document.anchor?_mem_chain hs)

theorem Host.Orderly.holds_of_mem_scopes (hh : host.Orderly) (hpage : host.currentPage.kind = .page)
    (hselection : host.document.root ∉ host.selection) (h : s ∈ host.scopes childSearch) :
    host.document.root.Holds s := by
  refine (hh.labelled.has_of_mem_scopes h).holds_root ?_
  rcases Document.mem_scopes h with rfl | hs | ⟨t, ht, hs⟩
  · exact hh.document.ne_root_of_kind (by rw [hpage]; decide)
  · rintro rfl
    exact hselection hs
  · exact Document.anchor?_ne_root hh.document hs

end

end SceneSearch
