import SceneSearch.Proofs.Query.Suffix
import SceneSearch.Proofs.Search.Nodes

/-!
# A query with and without hidden layers

Three searches for one query are compared: the plain one, one with `--a` and one with `--h` behind
the query. On the way to the last segment `--a` and `--h` do the same, and at the last segment `--h`
keeps the matches of `--a` that are hidden themselves. The plain search goes other ways, by bulk
lookups or without hidden parts, and on a host that may hide more; but from each scope it finds only
what is found with `--a`, so no match of it is missing there. Nothing is asked of the document but
that it is a tree whose ids tell its nodes apart.
-/

namespace SceneSearch

open Evaluation QueryPlan

variable {r s t : Spot} {segment : SegmentPlan} {host other : Host} {bulk allowSelf : Bool}

/-! ## One scope -/

namespace Evaluation

section

variable {segment : SegmentPlan} {matcher : NameMatcher}

/-- Only hidden layers of a kind are matches with `--h`, whichever way they are looked for. -/
theorem matchesBelow_hiddenOnly (hall : segment.visibility = .all) :
    matchesBelow { segment with visibility := .hiddenOnly } matcher s bulk host =
      (matchesBelow segment matcher s bulk host).filter fun t ↦ !t.visible := by
  have hkinds : bulkKinds? bulk segment = none := by
    rw [bulkKinds?, hall]
    simp [VisibilityMode.prunesHidden]
  have hkinds' : bulkKinds? bulk { segment with visibility := .hiddenOnly } = none := by
    rw [bulkKinds?]
    simp [VisibilityMode.prunesHidden]
  rw [matchesBelow, matchesBelow, hkinds, hkinds']
  dsimp only
  split
  · rw [childMatches, childMatches, List.filter_filter]
    refine List.filter_congr fun t _ ↦ ?_
    rw [hall, Bool.and_comm]
    exact congrArg _ (Bool.and_true _).symm
  · rw [walkMatches, walkMatches, List.filter_filter, hall]
    exact List.filter_congr fun t _ ↦ rfl

private theorem finder_hiddenOnly (segment : SegmentPlan) (hall : segment.visibility = .all) :
    finder bulk host { segment with visibility := .hiddenOnly } allowSelf s =
      (finder bulk host segment allowSelf s).filter fun t ↦ !t.visible := by
  rw [finder, finder, List.filter_append, matchesBelow_hiddenOnly hall]
  refine congrArg (· ++ _) ?_
  split
  · rw [ownMatches, ownMatches, List.filter_filter]
    refine List.filter_congr fun t _ ↦ ?_
    rw [hall, Bool.and_comm]
    exact congrArg _ (Bool.and_true _).symm
  · rfl

theorem mem_matchesBelow_all (ht : r.IsTree) (hs : r.Reaches s)
    (hshown : other.skipsInstanceChildren = false)
    (h : t ∈ matchesBelow segment matcher s true host) :
    t ∈ matchesBelow { segment with visibility := .all } matcher s true other := by
  have hkinds : bulkKinds? true { segment with visibility := .all } = none := by
    rw [bulkKinds?]
    simp [VisibilityMode.prunesHidden]
  have hexposure : other.shown = .everything := by rw [Host.shown, hshown, Host.exposure_false]
  have hwalk : s.Holds t → fits segment matcher t = true →
      t ∈ walkMatches { segment with visibility := .all } matcher s other := by
    intro hholds hfits
    rw [walkMatches, hexposure]
    exact List.mem_filter.mpr ⟨(ht.mem_descendants_everything_iff hs).mpr hholds, hfits⟩
  have hholds := holds_of_mem_matchesBelow ht hs h
  rw [matchesBelow] at h ⊢
  rw [hkinds]
  dsimp only
  split
  · rename_i hdirect
    rw [if_pos hdirect, childMatches, List.mem_filter] at h
    obtain ⟨hmem, hfits⟩ := h
    rw [childMatches, hexposure]
    refine List.mem_filter.mpr ⟨?_, ?_⟩
    · exact List.mem_filter.mpr ⟨Spot.mem_children_of_mem_shownChildren hmem, rfl⟩
    · exact (Bool.and_true _).trans (Bool.and_eq_true_iff.mp hfits).1
  · rename_i hdirect
    rw [if_neg hdirect] at h
    refine hwalk hholds ?_
    split at h
    · rename_i kinds hkinds
      obtain ⟨hmem, hname⟩ := List.mem_filter.mp h
      have hkind := (List.mem_filter.mp (List.mem_filter.mp hmem).1).2
      have hpool : segment.symbol.poolKinds? = some kinds := by
        rw [bulkKinds?] at hkinds
        split at hkinds
        · exact hkinds
        · cases hkinds
      rw [fits, TypeSymbol.admits_eq_contains hpool, Bool.and_eq_true]
      exact ⟨hkind, hname⟩
    · exact (Bool.and_eq_true_iff.mp (List.mem_filter.mp h).2).2

theorem mem_finder_all (ht : r.IsTree) (hs : r.Reaches s)
    (hshown : other.skipsInstanceChildren = false) (segment : SegmentPlan)
    (h : t ∈ finder true host segment allowSelf s) :
    t ∈ finder true other { segment with visibility := .all } allowSelf s := by
  rw [finder, List.mem_append] at h ⊢
  refine h.imp (fun h ↦ ?_) fun h ↦ mem_matchesBelow_all ht hs hshown h
  split at h
  · rename_i hself
    obtain ⟨hmem, hkeep⟩ := List.mem_filter.mp h
    have hfits := (Bool.and_eq_true_iff.mp hkeep).1
    rw [if_pos hself]
    exact List.mem_filter.mpr ⟨hmem, (Bool.and_true _).trans hfits⟩
  · cases h

end

end Evaluation

/-! ## Segments -/

section

variable {placed : List PlacedPiece} {isFirst : Bool} {scopes scopes' : List Spot}

private theorem nodes_hiddenOnly (ht : r.IsTree) (hscopes : ∀ s ∈ scopes, r.Reaches s)
    (hne : placed ≠ []) :
    (finder bulk host).nodes allowSelf scopes (segmentsOf { hiddenOnly := true } isFirst placed) =
      ((finder bulk host).nodes allowSelf scopes
        (segmentsOf { allLayers := true } isFirst placed)).filter fun t ↦ !t.visible := by
  induction placed generalizing isFirst allowSelf scopes with
  | nil => exact absurd rfl hne
  | cons piece rest ih =>
    have hfound : ∀ segment, ∀ t ∈ scopes.flatMap (finder bulk host segment allowSelf),
        r.Reaches t := fun _ _ h ↦ reaches_of_mem_flatMap ht hscopes h
    rcases rest with _ | ⟨next, rest⟩
    · -- the last segment
      have hlast : ∀ s, finder bulk host (segmentOf { hiddenOnly := true } piece isFirst true)
          allowSelf s = (finder bulk host (segmentOf { allLayers := true } piece isFirst true)
            allowSelf s).filter fun t ↦ !t.visible := fun s ↦
        finder_hiddenOnly (segmentOf { allLayers := true } piece isFirst true) rfl
      change distinctSpots (scopes.flatMap _) = (distinctSpots (scopes.flatMap _)).filter _
      rw [← distinctSpots_filter ht (hfound _), List.filter_flatMap]
      exact congrArg _ (List.flatMap_congr fun s _ ↦ hlast s)
    · -- on the way there the two segments are one
      have hway : segmentOf { hiddenOnly := true } piece isFirst false =
          segmentOf { allLayers := true } piece isFirst false := rfl
      change (finder bulk host).nodes false (distinctSpots (scopes.flatMap
        (finder bulk host (segmentOf { hiddenOnly := true } piece isFirst false) allowSelf))) _ = _
      rw [hway]
      exact ih (fun s hs ↦ hfound _ s (mem_of_firstOccurrences hs)) (List.cons_ne_nil next rest)

private theorem nodes_subset (ht : r.IsTree) (hscopes : ∀ s ∈ scopes', r.Reaches s)
    (hshown : other.skipsInstanceChildren = false) (hsub : scopes ⊆ scopes') :
    (finder true host).nodes allowSelf scopes (segmentsOf {} isFirst placed) ⊆
      (finder true other).nodes allowSelf scopes'
        (segmentsOf { allLayers := true } isFirst placed) := by
  induction placed generalizing isFirst allowSelf scopes scopes' with
  | nil => exact hsub
  | cons piece rest ih =>
    have hfound : ∀ t ∈ scopes'.flatMap (finder true other
        (segmentOf { allLayers := true } piece isFirst rest.isEmpty) allowSelf), r.Reaches t :=
      fun _ h ↦ reaches_of_mem_flatMap ht hscopes h
    refine ih (fun s hs ↦ hfound s (mem_of_firstOccurrences hs)) fun t h ↦ ?_
    rw [mem_distinctSpots_iff ht hfound]
    obtain ⟨s, hs, h⟩ := List.mem_flatMap.mp (mem_of_firstOccurrences h)
    exact List.mem_flatMap.mpr ⟨s, hsub hs, mem_finder_all ht (hscopes s (hsub hs)) hshown
      (segmentOf {} piece isFirst rest.isEmpty) h⟩

end

/-! ## Plans -/

section

variable {find : Finder} {piece : PlacedPiece} {placed rest : List PlacedPiece} {childSearch : Bool}
  {pages scopes : List Spot}

/-- Whether a plan names a page, and which one, does not depend on `--a` and `--h`. -/
theorem planNodes_assembled (raw : String) (m : QueryModifiers) :
    find.planNodes pages scopes (assembled raw m childSearch (piece :: rest)) =
      if (segmentOf {} piece true true).symbol = .page then
        match pages.find? fun page ↦
            (NameMatcher.ofQuery (segmentOf {} piece true true).nameQuery).accepts page.name with
        | none => ([], none)
        | some page => (find.nodes false [page] (segmentsOf m false rest), some page)
      else (find.nodes (!childSearch) scopes (segmentsOf m true (piece :: rest)), none) := by
  have hdirective : (assembled raw m childSearch (piece :: rest)).hasPageDirective =
      ((segmentOf {} piece true true).symbol == .page) := rfl
  rw [Finder.planNodes, QueryPlan.steps, hdirective]
  by_cases hpage : (segmentOf {} piece true true).symbol = .page
  · rw [hpage]
    rfl
  · rw [if_neg hpage, if_neg (by simpa using hpage), if_neg (by simpa using hpage)]
    rfl

/-- **Plans with and without hidden layers**: with `--h` they find what they find with `--a` and is
hidden itself, and with `--a` they find whatever they find without. -/
theorem planNodes_marked (ht : r.IsTree) (hpages : ∀ s ∈ pages, r.Reaches s)
    (hscopes : ∀ s ∈ scopes, r.Reaches s) (hshown : other.skipsInstanceChildren = false)
    {raw : String} (hsteps : (assembled raw {} childSearch placed).steps ≠ [])
    (rawAll rawHidden : String) :
    ((finder true other).planNodes pages scopes
        (assembled rawHidden { hiddenOnly := true } childSearch placed)).1 =
      ((finder true other).planNodes pages scopes
        (assembled rawAll { allLayers := true } childSearch placed)).1.filter (!·.visible) ∧
    ((finder true host).planNodes pages scopes (assembled raw {} childSearch placed)).1 ⊆
      ((finder true other).planNodes pages scopes
        (assembled rawAll { allLayers := true } childSearch placed)).1 := by
  rcases placed with _ | ⟨piece, rest⟩
  · exact absurd rfl hsteps
  rw [planNodes_assembled, planNodes_assembled, planNodes_assembled]
  by_cases hpage : (segmentOf {} piece true true).symbol = .page
  · have hrest : rest ≠ [] := by
      rintro rfl
      refine hsteps ?_
      rw [steps, if_pos]
      · rfl
      · exact beq_iff_eq.mpr hpage
    rw [if_pos hpage, if_pos hpage, if_pos hpage]
    rcases hfind : pages.find? _ with _ | page
    · exact ⟨rfl, List.Subset.refl []⟩
    · have hstart : ∀ s ∈ [page], r.Reaches s := by
        simpa using hpages page (List.mem_of_find?_eq_some hfind)
      exact ⟨nodes_hiddenOnly ht hstart hrest,
        nodes_subset ht hstart hshown (List.Subset.refl [page])⟩
  · rw [if_neg hpage, if_neg hpage, if_neg hpage]
    exact ⟨nodes_hiddenOnly ht hscopes (List.cons_ne_nil piece rest),
      nodes_subset ht hscopes hshown (List.Subset.refl scopes)⟩

end

/-! ## Searches -/

section

variable {query : String} {plan : QueryPlan} {m m' m'' : Monitor}

/-- A search with a new engine for all matches of a query finds the nodes of the host as the search
is shown it. -/
theorem Engine.exists_nodes_search_new (hh : host.Labelled) (hplan : parseQuery query = .ok plan)
    (hall : KeepsAll query) (hne : plan.isEmpty = false) (hm : m.Calm) :
    ∃ r, (Engine.new.search host query m).1 = .ok r ∧
      r.nodes = ((host.exposed plan.modifiers.includesHidden).planNodes plan).1 := by
  obtain ⟨r, hr, hnodes, -⟩ :=
    exists_response_of_told hplan hall hne (told_search_new_eq_answer hh hm hplan)
  exact ⟨r, hr, hnodes⟩

/-- **How the visibility modifiers relate.** Let a query without modifiers look for something
besides a page, and leave no quote open. With `--h` behind it a search finds exactly what it finds
with `--a` and is hidden itself, in the same order; and with `--a` it finds whatever it finds
without. -/
theorem Engine.nodes_search_marked (hh : host.Labelled) (hplan : parseQuery query = .ok plan)
    (hfree : ModifierFree query) (hclosed : Even (query.toList.count '"'))
    (hsteps : plan.steps ≠ []) (hm : m.Calm) (hm' : m'.Calm) (hm'' : m''.Calm) :
    ∃ r all hidden, (Engine.new.search host query m).1 = .ok r ∧
      (Engine.new.search host (query ++ " --a") m').1 = .ok all ∧
      (Engine.new.search host (query ++ " --h") m'').1 = .ok hidden ∧
      hidden.nodes = all.nodes.filter (!·.visible) ∧ ∀ t ∈ r.nodes, t ∈ all.nodes := by
  obtain ⟨childSearch, placed, ⟨hplan', hall⟩, ⟨hplanAll, hallAll⟩, hplanHidden, hallHidden⟩ :=
    exists_plans_marked hfree hclosed
  obtain rfl := Except.ok.inj (hplan'.symm.trans hplan)
  have hplaced : ∀ raw m, (assembled raw m childSearch placed).isEmpty = false := by
    rcases placed with _ | ⟨piece, rest⟩
    · exact absurd rfl hsteps
    · exact fun _ _ ↦ rfl
  obtain ⟨r, hr, hnodes⟩ := exists_nodes_search_new hh hplan' hall (hplaced _ _) hm
  obtain ⟨all, hall', hnodesAll⟩ := exists_nodes_search_new hh hplanAll hallAll (hplaced _ _) hm'
  obtain ⟨hidden, hhidden, hnodesHidden⟩ :=
    exists_nodes_search_new hh hplanHidden hallHidden (hplaced _ _) hm''
  have hpages : ∀ s ∈ host.document.pages, host.document.root.Reaches s := fun s hs ↦
    (Document.holds_of_mem_pages hs).reaches
  have hscopes : ∀ s ∈ host.scopes childSearch, host.document.root.Reaches s := fun s hs ↦
    hh.has_of_mem_scopes hs
  obtain ⟨hfilter, hsub⟩ := @planNodes_marked host.document.root host (host.exposed true) placed
    childSearch host.document.pages (host.scopes childSearch) hh.document.tree hpages hscopes rfl
    query hsteps (query ++ " --a") (query ++ " --h")
  refine ⟨r, all, hidden, hr, hall', hhidden, ?_, fun t ht ↦ ?_⟩
  · rw [hnodesHidden, hnodesAll]
    exact hfilter
  · rw [hnodesAll]
    rw [hnodes] at ht
    exact hsub ht

/-- For instance the texts of a card, of which one is hidden. -/
theorem Engine.nodes_search_marked_cards :
    ∃ r all hidden, (Engine.new.search .ofCards "t" {}).1 = .ok r ∧
      (Engine.new.search .ofCards ("t" ++ " --a") {}).1 = .ok all ∧
      (Engine.new.search .ofCards ("t" ++ " --h") {}).1 = .ok hidden ∧
      hidden.nodes = all.nodes.filter (!·.visible) ∧ ∀ t ∈ r.nodes, t ∈ all.nodes := by
  have hfree : ModifierFree "t" := ⟨[⟨.start, "t".toList, []⟩], rfl, by simp⟩
  exact nodes_search_marked Host.orderly_ofCards.labelled rfl hfree (by decide) (by decide)
    Monitor.calm_default Monitor.calm_default Monitor.calm_default

end

end SceneSearch
