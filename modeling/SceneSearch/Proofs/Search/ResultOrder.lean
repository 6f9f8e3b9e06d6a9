import Mathlib.Data.List.Pairwise
import SceneSearch.Proofs.Search.Nesting

/-!
# The order of results

Results of a query for all matches come in groups, one for each starting scope, and a group follows
the order of the document: that is what a user sees, unless a later segment asks for children only.
Inside one segment matches are collected scope by scope, and scopes may lie in each other, so this
is not obvious. It holds because an inner scope adds nothing to what an outer one finds: in a list
of scopes that follows the document, the first of two nested ones is the outer one, and everything
else is told apart by the children that it is below. `distinctSpots_flatMap_sublist` is this
induction over the tree. Whatever the segments are like, a node is never listed behind one of its
descendants.
-/

namespace SceneSearch

open Evaluation QueryPlan

variable {r s t : Spot} {spots front back : List Spot}

/-! ## Scopes in the order of the document -/

/-- An outer node of the list finds whatever an inner one does. -/
def Absorbs (find : Spot → List Spot) (spots : List Spot) : Prop :=
  ∀ u ∈ spots, ∀ v ∈ spots, u.Holds v → find v ⊆ find u

namespace Spot.IsTree

variable {find : Spot → List Spot}

/-- Below children that follow each other nodes are found in their order, if this holds below each
of them. -/
theorem distinctSpots_flatMap_children (ht : r.IsTree) (hs : r.Reaches s) {children : List Spot}
    (hnodup : children.Nodup) (hchildren : ∀ c ∈ children, c ∈ s.children)
    (hbelow : ∀ u, r.Reaches u → ∀ t ∈ find u, u.Reaches t)
    (hfind : ∀ c ∈ children, ∀ spots : List Spot, spots.Sublist c.subtree → Absorbs find spots →
      (distinctSpots (spots.flatMap find)).Sublist c.subtree)
    (hspots : spots.Sublist (children.flatMap subtree)) (habsorbs : Absorbs find spots) :
    (distinctSpots (spots.flatMap find)).Sublist (children.flatMap subtree) := by
  induction children generalizing spots with
  | nil =>
    obtain rfl := List.sublist_nil.mp hspots
    exact .refl []
  | cons c rest ih =>
    obtain ⟨hc, hrest⟩ := List.nodup_cons.mp hnodup
    have hin : ∀ d ∈ c :: rest, r.Reaches d := fun d hd ↦ hs.child (hchildren d hd)
    rw [List.flatMap_cons] at hspots ⊢
    obtain ⟨first, more, rfl, hfirst, hmore⟩ := List.sublist_append_iff.mp hspots
    -- what is found from the first part is below the first child, the rest is below the others
    have hbelowFirst : ∀ t ∈ first.flatMap find, c.Reaches t := by
      intro t h
      obtain ⟨u, hu, h⟩ := List.mem_flatMap.mp h
      have hcu := (ht.mem_subtree_iff (hin c List.mem_cons_self)).mp (hfirst.subset hu)
      exact hcu.trans (hbelow u ((hin c List.mem_cons_self).trans hcu) t h)
    have hbelowMore : ∀ t ∈ more.flatMap find, ∃ d ∈ rest, d.Reaches t := by
      intro t h
      obtain ⟨u, hu, h⟩ := List.mem_flatMap.mp h
      obtain ⟨d, hd, hu⟩ := List.mem_flatMap.mp (hmore.subset hu)
      have hdu := (ht.mem_subtree_iff (hin d (List.mem_cons_of_mem c hd))).mp hu
      exact ⟨d, hd, hdu.trans (hbelow u ((hin d (List.mem_cons_of_mem c hd)).trans hdu) t h)⟩
    have hdisjoint : ∀ t ∈ first.flatMap find, t ∉ more.flatMap find := by
      intro t hct hmem
      obtain ⟨d, hd, hdt⟩ := hbelowMore t hmem
      obtain rfl := ht.child_unique hs (hchildren c List.mem_cons_self)
        (hchildren d (List.mem_cons_of_mem c hd)) (hbelowFirst t hct) hdt
      exact hc hd
    rw [List.flatMap_append, distinctSpots_append ht
      (fun t h ↦ (hin c List.mem_cons_self).trans (hbelowFirst t h))
      (fun t h ↦ by
        obtain ⟨d, hd, hdt⟩ := hbelowMore t h
        exact (hin d (List.mem_cons_of_mem c hd)).trans hdt) hdisjoint]
    refine (hfind c List.mem_cons_self first hfirst ?_).append (ih hrest ?_ ?_ hmore ?_)
    · exact fun u hu v hv ↦ habsorbs u (List.mem_append_left _ hu) v (List.mem_append_left _ hv)
    · exact fun d hd ↦ hchildren d (List.mem_cons_of_mem c hd)
    · exact fun d hd ↦ hfind d (List.mem_cons_of_mem c hd)
    · exact fun u hu v hv ↦ habsorbs u (List.mem_append_right _ hu) v (List.mem_append_right _ hv)

/-- **Inner scopes add nothing, and what is found follows the document**: if scopes at and below a
node follow the document, each finds nodes below itself in that order, and an outer one finds what
an inner one does, then all together find nodes in that order. -/
theorem distinctSpots_flatMap_sublist (ht : r.IsTree) (hs : r.Reaches s)
    (hfind : ∀ u, r.Reaches u → (find u).Sublist (u.descendants .everything fun _ ↦ false))
    (hspots : spots.Sublist s.subtree) (habsorbs : Absorbs find spots) :
    (distinctSpots (spots.flatMap find)).Sublist (s.descendants .everything fun _ ↦ false) := by
  have hbelow : ∀ u, r.Reaches u → ∀ t ∈ find u, u.Holds t := fun u hu t h ↦
    (ht.mem_descendants_everything_iff hu).mp ((hfind u hu).subset h)
  suffices h : ∀ spots : List Spot, spots.Sublist s.subtree → Absorbs find spots →
      (distinctSpots (spots.flatMap find)).Sublist (s.descendants .everything fun _ ↦ false) from
    h spots hspots habsorbs
  refine ht.induction_below (fun s hs ih spots hspots habsorbs ↦ ?_) hs
  rw [ht.subtree_eq hs] at hspots
  rcases List.sublist_cons_iff.mp hspots with hspots | ⟨inner, rfl, hinner⟩
  · -- the node is no scope itself, so everything is found below its children
    rw [ht.descendants_everything_eq hs] at hspots ⊢
    refine ht.distinctSpots_flatMap_children hs (ht.nodup_children hs) (fun c hc ↦ hc)
      (fun u hu t h ↦ (hbelow u hu t h).reaches) (fun c hc spots hsub hinner ↦ ?_) hspots habsorbs
    rw [ht.subtree_eq (hs.child hc)]
    exact (ih c hc spots hsub hinner).cons c
  · -- the node is a scope, and finds everything that the others do
    have hown : distinctSpots (find s) = find s :=
      distinctSpots_eq_self ht (fun t h ↦ hs.trans (hbelow s hs t h).reaches)
        ((ht.nodup_descendants hs).sublist (hfind s hs))
    have hothers : ∀ t ∈ inner.flatMap find, t.place ∈ (find s).map Spot.place ++ [] := by
      intro t h
      obtain ⟨v, hv, h⟩ := List.mem_flatMap.mp h
      have hholds := (ht.mem_descendants_everything_iff hs).mp (hinner.subset hv)
      rw [List.append_nil]
      exact List.mem_map_of_mem
        (habsorbs s List.mem_cons_self v (List.mem_cons_of_mem s hv) hholds h)
    have hdistinct : distinctSpots ((s :: inner).flatMap find) = find s := by
      rw [List.flatMap_cons, distinctSpots, firstOccurrences_append,
        firstOccurrences_eq_nil hothers, List.append_nil]
      exact hown
    rw [hdistinct]
    exact hfind s hs

end Spot.IsTree

/-! ## Matches of one scope -/

section

variable {segment : SegmentPlan} {matcher : NameMatcher} {host : Host} {bulk allowSelf : Bool}

theorem matchesBelow_sublist (ht : r.IsTree) (hs : r.Reaches s) :
    (matchesBelow segment matcher s bulk host).Sublist
      (s.descendants .everything fun _ ↦ false) := by
  rw [matchesBelow]
  split
  · exact (List.filter_sublist.trans List.filter_sublist).trans (ht.children_sublist hs)
  · split
    · refine List.filter_sublist.trans ?_
      rw [Host.lookup]
      refine List.filter_sublist.trans ?_
      exact List.filter_sublist.trans (ht.descendants_sublist hs host.shown fun _ ↦ false)
    · exact List.filter_sublist.trans (ht.descendants_sublist hs host.shown _)

theorem finder_sublist (ht : r.IsTree) (hs : r.Reaches s) :
    (finder bulk host segment allowSelf s).Sublist s.subtree := by
  have hown : (if allowSelf then ownMatches segment (.ofQuery segment.nameQuery) s else []).Sublist
      [s] := by
    split
    · refine List.filter_sublist.trans ?_
      split
      · exact List.nil_sublist _
      · exact .refl [s]
    · exact List.nil_sublist _
  rw [ht.subtree_eq hs]
  exact hown.append (matchesBelow_sublist ht hs)

/-- Where a segment is not direct, an outer scope finds whatever an inner one does. -/
theorem absorbs_finder {d : Document} {m : QueryModifiers} {isFinal : Bool} (hd : d.Orderly)
    (h : d.NestsFor m spots)
    (hmode : segment.visibility = .resolve m.hiddenOnly m.allLayers isFinal)
    (hsuits : host.Suits segment.visibility) (hdirect : segment.direct = false) :
    Absorbs (finder true host segment false) spots := by
  intro u hu v hv huv t ht
  exact mem_finder_of_outer hd (h.holds u hu) huv hmode hsuits hdirect
    (fun hvisible w huw hwv ↦ h.seenWithin hvisible u hu v hv huv w huw hwv) ht

end

/-! ## Scopes apart from each other -/

/-- No node is at or below both. -/
def Spot.Apart (a b : Spot) : Prop := ∀ t, a.Reaches t → ¬b.Reaches t

instance : Std.Symm Spot.Apart := ⟨fun _ _ h t hb ha ↦ h t ha hb⟩

theorem Spot.IsTree.apart (ht : r.IsTree) (hs : r.Reaches s) (ht' : r.Reaches t) (hne : s ≠ t)
    (hst : ¬s.Holds t) (hts : ¬t.Holds s) : s.Apart t := by
  intro u hsu htu
  rcases ht.reaches_or_holds hs ht' hsu htu with hreach | hholds
  · rcases Spot.reaches_iff_eq_or_holds.mp hreach with heq | hholds
    · exact hne heq.symm
    · exact hst hholds
  · exact hts hholds

private theorem nodup_of_apart (h : spots.Pairwise Spot.Apart) : spots.Nodup := by
  refine h.imp fun {a b} hab heq ↦ ?_
  exact hab b (heq ▸ .refl a) (.refl b)

theorem nests_of_apart {d : Document} (hd : d.Orderly) (hholds : ∀ s ∈ spots, d.root.Holds s)
    (h : spots.Pairwise Spot.Apart) : d.Nests spots := by
  refine nests_of_not_holds hholds fun s hs t ht hst ↦ ?_
  by_cases heq : s = t
  · subst heq
    exact hd.tree.not_holds_self (hholds s hs).reaches hst
  · exact h.forall hs ht heq t hst.reaches (.refl t)

section

variable {segments : List SegmentPlan} {host : Host} {bulk allowSelf : Bool} {scopes : List Spot}

theorem nodes_append (ht : r.IsTree) (hfront : ∀ s ∈ front, r.Reaches s)
    (hback : ∀ s ∈ back, r.Reaches s) (hapart : ∀ a ∈ front, ∀ b ∈ back, a.Apart b) :
    (finder bulk host).nodes allowSelf (front ++ back) segments =
      (finder bulk host).nodes allowSelf front segments ++
        (finder bulk host).nodes allowSelf back segments := by
  induction segments generalizing allowSelf front back with
  | nil => rfl
  | cons segment rest ih =>
    have hdisjoint : ∀ t ∈ front.flatMap (finder bulk host segment allowSelf),
        t ∉ back.flatMap (finder bulk host segment allowSelf) := by
      intro t h h'
      obtain ⟨a, ha, hat⟩ := exists_scope_of_mem_flatMap ht hfront h
      obtain ⟨b, hb, hbt⟩ := exists_scope_of_mem_flatMap ht hback h'
      exact hapart a ha b hb t hat hbt
    rw [Finder.nodes, Finder.nodes, Finder.nodes, List.flatMap_append,
      distinctSpots_append ht (fun t h ↦ reaches_of_mem_flatMap ht hfront h)
        (fun t h ↦ reaches_of_mem_flatMap ht hback h) hdisjoint]
    refine ih (fun t h ↦ reaches_of_mem_flatMap ht hfront (mem_of_firstOccurrences h))
      (fun t h ↦ reaches_of_mem_flatMap ht hback (mem_of_firstOccurrences h))
      fun a ha b hb t hat hbt ↦ ?_
    -- what is below the matches is below the scopes that they were found from
    obtain ⟨u, hu, hua⟩ := exists_scope_of_mem_flatMap ht hfront (mem_of_firstOccurrences ha)
    obtain ⟨v, hv, hvb⟩ := exists_scope_of_mem_flatMap ht hback (mem_of_firstOccurrences hb)
    exact hapart u hu v hv t (hua.trans hat) (hvb.trans hbt)

/-- Scopes that are apart find what each of them finds alone, one after the other. -/
theorem nodes_eq_flatMap (ht : r.IsTree) (hscopes : ∀ s ∈ scopes, r.Reaches s)
    (hapart : scopes.Pairwise Spot.Apart) :
    (finder bulk host).nodes allowSelf scopes segments =
      scopes.flatMap fun s ↦ (finder bulk host).nodes allowSelf [s] segments := by
  induction scopes with
  | nil => exact Finder.nodes_nil _ allowSelf segments
  | cons s rest ih =>
    obtain ⟨hs, hrest⟩ := List.pairwise_cons.mp hapart
    have hin : ∀ t ∈ rest, r.Reaches t := fun t ht ↦ hscopes t (List.mem_cons_of_mem s ht)
    have hsplit : s :: rest = [s] ++ rest := rfl
    rw [List.flatMap_cons, ← ih hin hrest, hsplit]
    refine nodes_append ht ?_ hin ?_
    · simpa using hscopes s List.mem_cons_self
    · simpa using hs

end

/-! ## Segments one below the other -/

section

variable {d : Document} {m : QueryModifiers} {isFirst allowSelf : Bool} {host : Host}
  {segments : List SegmentPlan} {scopes starts : List Spot}

theorem Document.NestsFor.nodes (hd : d.Orderly) (h : d.NestsFor m scopes)
    (harranged : Arranged m isFirst segments)
    (hsuits : ∀ segment ∈ segments, host.Suits segment.visibility) :
    d.NestsFor m ((finder true host).nodes allowSelf scopes segments) := by
  induction segments generalizing isFirst allowSelf scopes with
  | nil => exact h
  | cons segment rest ih =>
    obtain ⟨-, hmode, -, hrest⟩ := harranged
    exact ih (h.step hd hmode (hsuits segment List.mem_cons_self)) hrest
      fun segment hs ↦ hsuits segment (List.mem_cons_of_mem _ hs)

private theorem nodup_nodes (find : Finder) (hscopes : scopes.Nodup) :
    (find.nodes allowSelf scopes segments).Nodup := by
  induction segments generalizing allowSelf scopes with
  | nil => exact hscopes
  | cons segment rest ih => exact ih (nodup_distinctSpots _)

/-- Segments that are not direct find nodes that follow the document from scopes that do. -/
theorem Document.NestsFor.nodes_sublist (hd : d.Orderly) (h : d.NestsFor m scopes)
    (hs : d.Has s) (hscopes : scopes.Sublist s.subtree) (harranged : Arranged m isFirst segments)
    (hsuits : ∀ segment ∈ segments, host.Suits segment.visibility)
    (hdirect : ∀ segment ∈ segments, segment.direct = false) :
    ((finder true host).nodes false scopes segments).Sublist s.subtree := by
  induction segments generalizing isFirst scopes with
  | nil => exact hscopes
  | cons segment rest ih =>
    obtain ⟨-, hmode, -, hrest⟩ := harranged
    have hsuits' := hsuits segment List.mem_cons_self
    have hfind : ∀ u, d.root.Reaches u → (finder true host segment false u).Sublist
        (u.descendants .everything fun _ ↦ false) := fun u hu ↦ matchesBelow_sublist hd.tree hu
    have hfound := hd.tree.distinctSpots_flatMap_sublist hs hfind hscopes
      (absorbs_finder hd h hmode hsuits' (hdirect segment List.mem_cons_self))
    refine ih (h.step hd hmode hsuits') ?_ hrest
      (fun segment hs ↦ hsuits segment (List.mem_cons_of_mem _ hs))
      fun segment hs ↦ hdirect segment (List.mem_cons_of_mem _ hs)
    rw [hd.tree.subtree_eq hs]
    exact hfound.cons s

/-- From one starting scope the matches follow the document, if no later segment is direct. -/
theorem nodes_singleton_sublist (hd : d.Orderly) (hs : d.root.Holds s)
    (harranged : Arranged m isFirst segments)
    (hsuits : ∀ segment ∈ segments, host.Suits segment.visibility)
    (hdirect : ∀ segment ∈ segments.tail, segment.direct = false) :
    ((finder true host).nodes allowSelf [s] segments).Sublist s.subtree := by
  rcases segments with _ | ⟨segment, rest⟩
  · rw [hd.tree.subtree_eq hs.reaches]
    exact (List.nil_sublist _).cons_cons s
  · obtain ⟨-, hmode, -, hrest⟩ := harranged
    have hnests : d.Nests [s] :=
      nests_of_apart hd (by simpa using hs) (List.pairwise_singleton Spot.Apart s)
    have hfirst : (distinctSpots ([s].flatMap (finder true host segment allowSelf))).Sublist
        s.subtree := by
      rw [List.flatMap_singleton]
      exact (firstOccurrences_sublist [] _).trans (finder_sublist hd.tree hs.reaches)
    exact ((hnests.nestsFor m).step hd hmode (hsuits segment List.mem_cons_self)).nodes_sublist hd
      hs.reaches hfirst hrest (fun segment hs ↦ hsuits segment (List.mem_cons_of_mem _ hs)) hdirect

/-- Nodes come in one group for each start: starts have nothing in common, and what is in a group is
at or below its start and follows the order of the document. -/
structure Document.Groups (d : Document) (starts nodes : List Spot) : Prop where
  /-- No node is at or below two starts. -/
  apart : starts.Pairwise Spot.Apart
  /-- Each start has a group of its own. -/
  groups : ∃ group : Spot → List Spot, nodes = starts.flatMap group ∧
    ∀ s ∈ starts, (∀ t ∈ group s, s.Reaches t) ∧ (group s).Sublist d.root.subtree

private theorem pairwise_nodes (hd : d.Orderly) (hstarts : ∀ s ∈ starts, d.root.Holds s)
    (hapart : starts.Pairwise Spot.Apart) (harranged : Arranged m isFirst segments)
    (hsuits : ∀ segment ∈ segments, host.Suits segment.visibility) :
    ((finder true host).nodes allowSelf starts segments).Pairwise fun a b ↦ ¬b.Holds a := by
  have hnests := (nests_of_apart hd hstarts hapart).nestsFor m
  exact (hnests.nodes hd harranged hsuits).outerFirst.pairwise
    (nodup_nodes (finder true host) (nodup_of_apart hapart))

/-- From starts that are apart, matches come in groups if no later segment is direct. -/
theorem groups_nodes (hd : d.Orderly) (hstarts : ∀ s ∈ starts, d.root.Holds s)
    (hapart : starts.Pairwise Spot.Apart) (harranged : Arranged m isFirst segments)
    (hsuits : ∀ segment ∈ segments, host.Suits segment.visibility)
    (hdirect : ∀ segment ∈ segments.tail, segment.direct = false) :
    d.Groups starts ((finder true host).nodes allowSelf starts segments) := by
  refine ⟨hapart, _, nodes_eq_flatMap hd.tree (fun s hs ↦ (hstarts s hs).reaches) hapart, ?_⟩
  intro s hs
  have hreach := (hstarts s hs).reaches
  have hsub : ((finder true host).nodes allowSelf [s] segments).Sublist s.subtree :=
    nodes_singleton_sublist hd (hstarts s hs) harranged hsuits hdirect
  refine ⟨fun t ht ↦ (hd.tree.mem_subtree_iff hreach).mp (hsub.subset ht), ?_⟩
  exact hsub.trans (hd.tree.subtree_sublist (.refl _) hreach)

end

/-! ## Plans -/

section

variable {host : Host} {plan : QueryPlan} {query : String} {m : QueryModifiers} {isFirst : Bool}

theorem Host.Orderly.pairwise_scopes (hh : host.Orderly) (childSearch : Bool) :
    (host.scopes childSearch).Pairwise Spot.Apart := by
  have hnodup : (host.scopes childSearch).Nodup := by
    rcases host.scopes_eq_or childSearch with hscopes | ⟨spots, hscopes⟩
    · rw [hscopes]
      exact List.nodup_singleton _
    · rw [hscopes]
      exact (nodup_distinctSpots _).filter _
  refine List.Pairwise.imp_of_mem (fun {a b} ha hb hne ↦ ?_) hnodup
  exact hh.document.tree.apart (hh.labelled.has_of_mem_scopes ha) (hh.labelled.has_of_mem_scopes hb)
    hne (hh.not_holds_scopes ha hb) (hh.not_holds_scopes hb ha)

theorem Host.Orderly.groups_nil (hh : host.Orderly) (childSearch : Bool) :
    host.document.Groups (host.scopes childSearch) [] :=
  ⟨hh.pairwise_scopes childSearch, fun _ ↦ [], by simp, by simp⟩

theorem Host.Orderly.planNodes_ordered (hh : host.Orderly) (hpage : host.currentPage.kind = .page)
    (hselection : host.document.root ∉ host.selection)
    (harranged : Arranged m isFirst plan.steps)
    (hsuits : ∀ segment ∈ plan.steps, host.Suits segment.visibility) :
    (host.planNodes plan).1.Pairwise (fun a b ↦ ¬b.Holds a) ∧
      ((∀ segment ∈ plan.steps.tail, segment.direct = false) →
        host.document.Groups
          (Finder.startsOf (host.scopes plan.childSearch) (host.planNodes plan).2)
          (host.planNodes plan).1) := by
  rw [planNodes, Finder.planNodes]
  split
  · rcases hfind : plan.pageAmong? host.document.pages with _ | page
    · exact ⟨.nil, fun _ ↦ hh.groups_nil plan.childSearch⟩
    · have hstart : ∀ s ∈ [page], host.document.root.Holds s := by
        simpa using Document.holds_of_mem_pages (QueryPlan.mem_of_pageAmong? hfind)
      have hapart := List.pairwise_singleton Spot.Apart page
      exact ⟨pairwise_nodes hh.document hstart hapart harranged hsuits,
        groups_nodes hh.document hstart hapart harranged hsuits⟩
  · have hscopes : ∀ s ∈ host.scopes plan.childSearch, host.document.root.Holds s :=
      fun _ hs ↦ hh.holds_of_mem_scopes hpage hselection hs
    have hapart := hh.pairwise_scopes plan.childSearch
    exact ⟨pairwise_nodes hh.document hscopes hapart harranged hsuits,
      groups_nodes hh.document hscopes hapart harranged hsuits⟩

end

/-! ## Searches -/

section

variable {s : Session} {host : Host} {query : String} {plan : QueryPlan} {m : Monitor}

/-- A search for all matches that tells the answer of an orderly host tells it in order. -/
theorem Host.Orderly.exists_ordered_of_told {answer : Except SearchFault Response}
    (hh : host.Orderly) (hpage : host.currentPage.kind = .page)
    (hselection : host.document.root ∉ host.selection) (hplan : parseQuery query = .ok plan)
    (hall : KeepsAll query)
    (h : answer.map Response.told =
      (host.exposed plan.modifiers.includesHidden).answer true plan) :
    ∃ r, answer = .ok r ∧ r.nodes.Pairwise (fun a b ↦ ¬b.Holds a) ∧
      ((∀ segment ∈ plan.steps.tail, segment.direct = false) →
        host.document.Groups (Finder.startsOf (host.scopes plan.childSearch) r.page) r.nodes) := by
  obtain ⟨hdocument, hcurrent, hselected⟩ := host.exposed_fields plan.modifiers.includesHidden
  by_cases hempty : plan.isEmpty = true
  · rw [answer_of_isEmpty hempty] at h
    rcases answer with fault | r
    · cases h
    · obtain ⟨hresults, hnone⟩ := Prod.mk.inj (Except.ok.inj h)
      have hnodes : r.nodes = [] := congrArg (List.map Found.spot) hresults
      refine ⟨r, rfl, ?_⟩
      rw [hnodes, hnone]
      exact ⟨.nil, fun _ ↦ hh.groups_nil plan.childSearch⟩
  · obtain ⟨r, rfl, hnodes, hnamed⟩ :=
      exists_response_of_told hplan hall (Bool.not_eq_true _ ▸ hempty) h
    have hpage' : (host.exposed plan.modifiers.includesHidden).currentPage.kind = .page := by
      rw [hcurrent]
      exact hpage
    have hselection' : (host.exposed plan.modifiers.includesHidden).document.root ∉
        (host.exposed plan.modifiers.includesHidden).selection := by
      rw [hdocument, hselected]
      exact hselection
    have hordered := (hh.exposed plan.modifiers.includesHidden).planNodes_ordered hpage'
      hselection' (arranged_of_parseQuery hplan).steps
      fun segment hs ↦ suits_exposed hplan host segment (mem_segments_of_mem_steps hs)
    have hsame : (host.exposed plan.modifiers.includesHidden).scopes plan.childSearch =
        host.scopes plan.childSearch := by rw [scopes, scopes, hcurrent, hselected]
    rw [hdocument, hsame, ← hnodes, ← hnamed] at hordered
    exact ⟨r, rfl, hordered⟩

/-- **Results are in order.** However a session came about, a search for all matches lists no node
behind one of its descendants. If no segment behind the first one that looks for layers is direct,
the results come in one group for each start, in the order of the starts: these are the starting
scopes, or the page that the query names. A group follows the order of the document, in which no
node stands twice. A search that nothing disturbs comes to an answer. -/
theorem Session.nodes_search_ordered (h : s.Reached false) (hh : s.host.Orderly)
    (hpage : s.host.currentPage.kind = .page)
    (hselection : s.host.document.root ∉ s.host.selection)
    (hplan : parseQuery query = .ok plan) (hall : KeepsAll query) :
    s.host.document.root.subtree.Nodup ∧ (m.Calm → ∃ r, (s.search query m).1 = .ok r) ∧
      ∀ r, (s.search query m).1 = .ok r → r.nodes.Pairwise (fun a b ↦ ¬b.Holds a) ∧
        ((∀ segment ∈ plan.steps.tail, segment.direct = false) →
          s.host.document.Groups
            (Finder.startsOf (s.host.scopes plan.childSearch) r.page) r.nodes) := by
  obtain ⟨hsettings, htruthful⟩ := h.keepsUp
  have htold : ∀ {m : Monitor}, m.Calm → (s.engine.search s.host query m).1.map Response.told =
      (s.host.exposed plan.modifiers.includesHidden).answer true plan :=
    fun hm ↦ (htruthful rfl).told_search hsettings hh hm hplan
  have hsearch : (s.search query m).1 = (s.engine.search s.host query m).1 := by
    rw [Session.search_eq]
  rw [hsearch]
  refine ⟨hh.document.tree.nodup_subtree (.refl _), fun hm ↦ ?_, fun r hr ↦ ?_⟩
  · obtain ⟨r, hr, -⟩ := hh.exists_ordered_of_told hpage hselection hplan hall (htold hm)
    exact ⟨r, hr⟩
  · -- a search that comes to its end comes to the answer of the undisturbed one
    have hcalm := (Engine.allOrNothing_search (m := m)).ok r hr
    obtain ⟨r', hr', hordered⟩ :=
      hh.exists_ordered_of_told hpage hselection hplan hall (htold m.calm_calmed)
    obtain rfl := Except.ok.inj (hcalm.symm.trans hr')
    exact hordered

/-- For instance the texts of a card, the hidden one behind the other. -/
theorem Session.nodes_search_ordered_cards :
    ∃ r, ((⟨.ofCards, .new⟩ : Session).search "t --a" {}).1 = .ok r ∧
      r.nodes.head? = some Document.cardTitle ∧ r.nodes.length = 2 ∧
      r.nodes.Pairwise (fun a b ↦ ¬b.Holds a) ∧
      Document.cards.Groups [Document.cardPage] r.nodes := by
  obtain ⟨r, hr, hhead, hlength, hnamed⟩ :
      ∃ r, ((⟨.ofCards, .new⟩ : Session).search "t --a" {}).1 = .ok r ∧
        r.nodes.head? = some Document.cardTitle ∧ r.nodes.length = 2 ∧ r.page = none :=
    ⟨_, rfl, rfl, rfl, rfl⟩
  obtain ⟨plan, hplan, hsteps, hscopes⟩ : ∃ plan, parseQuery "t --a" = .ok plan ∧
      plan.steps.tail = [] ∧ Host.ofCards.scopes plan.childSearch = [Document.cardPage] :=
    ⟨_, rfl, rfl, rfl⟩
  have hpieces : cleanPieces "t --a" = .ok [⟨.start, "t".toList, [.allLayers]⟩] := by rfl
  have hall : KeepsAll "t --a" := by
    intro pieces h p hp w hw
    obtain rfl := Except.ok.inj (hpieces.symm.trans h)
    obtain rfl := List.mem_singleton.mp hp
    exact Or.inr (List.mem_singleton.mp hw)
  have hstart : (⟨.ofCards, .new⟩ : Session).Reached false :=
    .start .ofCards Engine.create_responseCapacity
  obtain ⟨-, -, hordered⟩ :=
    nodes_search_ordered (m := {}) hstart Host.orderly_ofCards rfl nofun hplan hall
  obtain ⟨hpairwise, hgroups⟩ := hordered r hr
  rw [hsteps, hnamed, hscopes] at hgroups
  exact ⟨r, hr, hhead, hlength, hpairwise, hgroups (List.forall_mem_nil _)⟩

end

end SceneSearch
