import Mathlib.Data.List.Perm.Subperm
import SceneSearch.Proofs.Query.FirstMatch
import SceneSearch.Proofs.Search.Directive
import SceneSearch.Proofs.Search.Narrowing
import SceneSearch.Proofs.Search.Visits

/-!
# Stopping at the first match

With `--f` every segment ends at its first match, and the next segment goes on below that match
alone. Such a search goes node by node, and all that it visits are candidates of its scopes up to
the match: `Tries`, from which the match itself follows as the last candidate visited.

That it visits no more nodes than the search for all matches needs an argument, since that search
remembers lookups and visits nothing for those. The nodes visited with `--f` are pairwise different,
over all segments: no one is at or below one that is visited later. Without `--f` each of them is
seen as well, since every match is a scope of the next segment there, and a search visits as many
nodes as it sees, or more. `CutShort` is the comparison of one segment, and `exists_tried` puts the
segments one below the other.
-/

namespace SceneSearch

open Evaluation QueryPlan

/-! ## The way to the first match -/

namespace Evaluation

variable {α β : Type} {host : Host} {segment : SegmentPlan} {allowSelf : Bool} {scope : Spot}
  {scopes front back : List Spot} {goal : Option Spot}

/-- A part of a search visits some candidates in their order, and none after the match that it is
out for. -/
def Tries (host : Host) (x : Search α) (candidates : List Spot) (goal : Option Spot) : Prop :=
  ∃ tried : List Spot, tried.Sublist candidates ∧ Visits host x tried.length ∧
    ∀ s ∈ goal, ∃ before, tried = before ++ [s]

private theorem tries_pure (a : α) : Tries host (pure a) [] none :=
    ⟨[], .refl [], visits_pure a, nofun⟩

/-- A part of a search that does not come to the match is gone on from. -/
theorem Tries.bind {x : Search α} {f : α → Search β} {a : α} (h : Tries host x front none)
    (hx : Finds host x (.ok a)) (hf : Tries host (f a) back goal) :
    Tries host (x >>= f) (front ++ back) goal := by
  obtain ⟨tried, hsub, hvisits, -⟩ := h
  obtain ⟨more, hsub', hvisits', hgoal⟩ := hf
  refine ⟨tried ++ more, hsub.append hsub', ?_, fun s hs ↦ ?_⟩
  · rw [List.length_append]
    exact hvisits.bind hx hvisits'
  · obtain ⟨before, rfl⟩ := hgoal s hs
    exact ⟨tried ++ before, (List.append_assoc ..).symm⟩

theorem Tries.stop {x : Search α} {f : α → Search β} {a : α} (h : Tries host x front goal)
    (hx : Finds host x (.ok a)) (hf : Visits host (f a) 0) (back : List Spot) :
    Tries host (x >>= f) (front ++ back) goal := by
  obtain ⟨tried, hsub, hvisits, hgoal⟩ := h
  exact ⟨tried, hsub.trans (List.sublist_append_left front back), hvisits.last hx hf, hgoal⟩

theorem Tries.after {x : Search Unit} {f : Unit → Search β} (h : Visits host x 0)
    (hx : Finds host x (.ok ())) (hf : Tries host (f ()) back goal) :
    Tries host (x >>= f) back goal := by
  obtain ⟨tried, hsub, hvisits, hgoal⟩ := hf
  exact ⟨tried, hsub, h.after hx hvisits, hgoal⟩

theorem Tries.bind_pure {x : Search α} {a : α} (h : Tries host x front goal)
    (hx : Finds host x (.ok a)) (f : α → β) :
    Tries host (x >>= fun a ↦ pure (f a)) front goal :=
  List.append_nil front ▸ h.stop hx (f := fun a ↦ pure (f a)) (visits_pure (f a)) []

private theorem tries_lookAt (host : Host) (segment : SegmentPlan) (matcher : NameMatcher)
    (scope : Spot) :
    Tries host (follow (lookAt true segment matcher scope))
      (if !scope.kind.isRootLike then [scope] else [])
      (ownMatches segment matcher scope).head? := by
  refine ⟨_, .refl _, ?_, fun s hs ↦ ?_⟩
  · rw [← visits_lookAt]
    exact visits_follow _
  · have hmem : s ∈ ownMatches segment matcher scope := List.mem_of_mem_head? hs
    obtain rfl := eq_of_mem_ownMatches hmem
    cases hkind : s.kind.isRootLike with
    | false => exact ⟨[], rfl⟩
    | true => simp [ownMatches, hkind] at hmem

private theorem tries_scanBelow (host : Host) (segment : SegmentPlan) (matcher : NameMatcher)
    (scope : Spot) :
    Tries host (scanBelow false host true segment matcher scope)
      (candidatesBelow host segment scope)
      (matchesBelow segment matcher scope false host).head? := by
  have hkinds : bulkKinds? false segment = none := by simp [bulkKinds?]
  rw [scanBelow, candidatesBelow, matchesBelow, hkinds]
  split
  · refine ⟨_, goneThrough_sublist true _ _, ?_, fun s hs ↦ exists_goneThrough_eq hs⟩
    rw [← visits_lookAtChildren]
    exact visits_follow _
  · refine ⟨_, goneThrough_sublist true _ _, ?_, fun s hs ↦ exists_goneThrough_eq hs⟩
    rw [← Host.visits_lookBelow]
    exact visits_follow _

private theorem tries_scan (hh : host.Labelled) (hs : host.document.Has scope) :
    Tries host (scan false host true segment (.ofQuery segment.nameQuery) allowSelf scope)
      (candidates host segment allowSelf scope)
      (finder false host segment allowSelf scope).head? := by
  have hbelow : Tries host
      (do
        let below ← scanBelow false host true segment (.ofQuery segment.nameQuery) scope
        pure ([] ++ below))
      (candidatesBelow host segment scope)
      (matchesBelow segment (.ofQuery segment.nameQuery) scope false host).head? :=
    (tries_scanBelow host segment _ scope).bind_pure (finds_scanBelow hh hs fun _ ↦ rfl) ([] ++ ·)
  rw [scan, finder, candidates]
  cases allowSelf with
  | false => exact hbelow
  | true =>
    have hlook := tries_lookAt host segment (.ofQuery segment.nameQuery) scope
    have hfinds : Finds host (follow (lookAt true segment (.ofQuery segment.nameQuery) scope))
        (.ok (ownMatches segment (.ofQuery segment.nameQuery) scope)) := finds_lookAt
    rw [Bool.true_and, if_pos rfl, if_pos rfl]
    cases hmatch : ownMatches segment (.ofQuery segment.nameQuery) scope with
    | nil =>
      rw [hmatch] at hlook hfinds
      exact hlook.bind hfinds hbelow
    | cons s rest =>
      rw [hmatch] at hlook hfinds
      refine hlook.stop hfinds ?_ _
      exact visits_pure _

/-- The first match of several scopes is looked for in one scope after the other. -/
theorem tries_findFirst (hh : host.Labelled) (hscopes : ∀ s ∈ scopes, host.document.Has s) :
    Tries host (findFirst host segment (.ofQuery segment.nameQuery) allowSelf scopes)
      (scopes.flatMap (candidates host segment allowSelf))
      (scopes.flatMap (finder false host segment allowSelf)).head? := by
  induction scopes with
  | nil => exact tries_pure []
  | cons scope rest ih =>
    have hs := hscopes scope List.mem_cons_self
    have hrest := ih fun s hs ↦ hscopes s (List.mem_cons_of_mem scope hs)
    have hscan : Tries host
        (scan false host true segment (.ofQuery segment.nameQuery) allowSelf scope)
        (candidates host segment allowSelf scope)
        (finder false host segment allowSelf scope).head? := tries_scan hh hs
    have hfinds : Finds host
        (scan false host true segment (.ofQuery segment.nameQuery) allowSelf scope)
        (.ok (Host.asked true (finder false host segment allowSelf scope))) :=
      finds_scan hh hs fun _ ↦ rfl
    rw [findFirst, List.flatMap_cons, List.flatMap_cons]
    refine Tries.after visits_check finds_check ?_
    cases hfound : finder false host segment allowSelf scope with
    | nil =>
      rw [hfound] at hscan hfinds
      exact hscan.bind hfinds hrest
    | cons s others =>
      rw [hfound] at hscan hfinds
      refine hscan.stop hfinds ?_ _
      exact visits_pure _

end Evaluation

/-! ## Segments -/

section

variable {host : Host} {segment : SegmentPlan} {segments : List SegmentPlan}
  {m : QueryModifiers} {isFirst allowSelf childSearch : Bool} {scopes starts : List Spot}
  {found found' : List Found}

namespace Evaluation

/-- Where a segment ends does not matter to what it finds when it goes node by node. -/
theorem finder_untilFirst (host : Host) (segment : SegmentPlan) :
    finder false host segment.untilFirst = finder false host segment := by
  have hkinds : ∀ segment, bulkKinds? false segment = none := by simp [bulkKinds?]
  funext allowSelf scope
  simp only [finder, matchesBelow, hkinds]
  rfl

private theorem foundIn_untilFirst (hd : host.document.Orderly)
    (hscopes : ∀ s ∈ scopes, host.document.root.Holds s) :
    (finder true host).foundIn segment.untilFirst allowSelf scopes =
      (finder true host).foundIn segment allowSelf scopes := by
  have hbulk : finder true host segment.untilFirst = finder false host segment.untilFirst :=
    finder_of_stopAtFirst rfl
  refine List.flatMap_congr fun s hs ↦ ?_
  rw [hbulk, finder_untilFirst, hd.finder_bulk_agreesOn allowSelf s (hscopes s hs)]

theorem segmentAnswer_untilFirst (hd : host.document.Orderly)
    (hscopes : ∀ s ∈ scopes, host.document.root.Holds s) :
    (finder true host).segmentAnswer segment.untilFirst allowSelf scopes =
      .ok (((finder true host).foundIn segment allowSelf scopes).take 1) := by
  rw [← foundIn_untilFirst hd hscopes]
  rfl

private theorem tries_evaluateSegment (hh : host.Orderly)
    (hscopes : ∀ s ∈ scopes, host.document.root.Holds s) :
    Tries host (evaluateSegment true host segment.untilFirst allowSelf scopes)
      (scopes.flatMap (candidates host segment allowSelf))
      (scopes.flatMap (finder true host segment allowSelf)).head? := by
  have hfinder : scopes.flatMap (finder true host segment allowSelf) =
      scopes.flatMap (finder false host segment.untilFirst allowSelf) := by
    rw [finder_untilFirst]
    exact List.flatMap_congr fun s hs ↦
      hh.document.finder_bulk_agreesOn allowSelf s (hscopes s hs)
  rw [hfinder]
  exact tries_findFirst hh.labelled fun s hs ↦ (hscopes s hs).reaches

theorem eq_nil_of_below {next : List Found} {tried : List Spot} (hempty : next.isEmpty = true)
    (htried : ∀ t ∈ tried, ∃ s ∈ next.map Found.spot, s.Holds t) : tried = [] := by
  rw [List.isEmpty_iff.mp hempty] at htried
  refine List.eq_nil_iff_forall_not_mem.mpr fun t ht ↦ ?_
  simpa using htried t ht

private theorem visits_unless {next : List Found} {x : Search (List Found)} {tried : List Spot}
    (hx : Visits host x tried.length)
    (htried : ∀ t ∈ tried, ∃ s ∈ next.map Found.spot, s.Holds t) :
    Visits host (if next.isEmpty then pure [] else x) tried.length := by
  split
  · rw [eq_nil_of_below ‹_› htried]
    exact visits_pure []
  · exact hx

private theorem surveys_unless {next : List Found} {x : Search (List Found)} {tried : List Spot}
    (hx : Surveys host x tried)
    (htried : ∀ t ∈ tried, ∃ s ∈ next.map Found.spot, s.Holds t) :
    Surveys host (if next.isEmpty then pure [] else x) tried := by
  split
  · rw [eq_nil_of_below ‹_› htried]
    exact surveys_pure []
  · exact hx

/-- One segment from some starts when it ends at its first match, against the same segment when it
keeps all its matches, from these scopes and others. -/
structure CutShort (host : Host) (segment : SegmentPlan) (allowSelf : Bool)
    (starts scopes tried : List Spot) (next kept : List Found) : Prop where
  /-- The nodes that are tried are candidates in their order. -/
  sublist : tried.Sublist (starts.flatMap (candidates host segment allowSelf))
  /-- Each of them is a visit. -/
  visits : Visits host (evaluateSegment true host segment.untilFirst allowSelf starts) tried.length
  /-- The first match is what is found. -/
  finds : Finds host (evaluateSegment true host segment.untilFirst allowSelf starts) (.ok next)
  /-- There is one at most, -/
  length_le : next.length ≤ 1
  /-- and it is the last node that is tried. -/
  last : ∀ s ∈ next.map Found.spot, ∃ before, tried = before ++ [s]
  /-- Without `--f` all of these nodes are seen. -/
  seen : Surveys host (evaluateSegment true host segment allowSelf scopes) tried
  /-- All matches are found then, -/
  keeps : Finds host (evaluateSegment true host segment allowSelf scopes) (.ok kept)
  /-- and the first one is among them. -/
  subset : next.map Found.spot ⊆ kept.map Found.spot
  /-- They are below the root. -/
  holds : ∀ s ∈ kept.map Found.spot, host.document.root.Holds s

private theorem exists_cutShort (hh : host.Orderly) (allowSelf : Bool) (hpick : segment.pick = none)
    (hstop : segment.stopAtFirst = false)
    (hscopes : ∀ s ∈ scopes, host.document.root.Holds s) (hstarts : starts ⊆ scopes) :
    ∃ tried next kept, CutShort host segment allowSelf starts scopes tried next kept := by
  have hd := hh.document
  have hreach : ∀ s ∈ scopes, host.document.Has s := fun s hs ↦ (hscopes s hs).reaches
  have hholds : ∀ s ∈ starts, host.document.root.Holds s := fun s hs ↦ hscopes s (hstarts hs)
  have hstays : ∀ t ∈ scopes.flatMap (finder true host segment allowSelf),
      host.document.root.Holds t := by
    intro t ht
    obtain ⟨s, hs, hst⟩ := List.mem_flatMap.mp ht
    exact hd.finder_staysIn_holds allowSelf s (hscopes s hs) t hst
  have hkept : ∀ t, t ∈ (distinct ((finder true host).foundIn segment allowSelf scopes)).map
      Found.spot ↔ t ∈ scopes.flatMap (finder true host segment allowSelf) := fun t ↦ by
    rw [Finder.map_spot_distinct_foundIn]
    exact mem_distinctSpots_iff hd.tree fun t ht ↦ (hstays t ht).reaches
  have hnext : ∀ t, t ∈ (((finder true host).foundIn segment allowSelf starts).take 1).map
      Found.spot ↔ t ∈ (starts.flatMap (finder true host segment allowSelf)).head? := fun t ↦ by
    rw [List.map_take, Finder.map_spot_foundIn]
    cases starts.flatMap (finder true host segment allowSelf) <;> simp [eq_comm]
  obtain ⟨tried, hsub, hvisits, hgoal⟩ :=
    @tries_evaluateSegment host segment allowSelf starts hh hholds
  refine ⟨tried, _, _, hsub, hvisits, ?_, List.length_take_le 1 _,
    fun s hs ↦ hgoal s ((hnext s).mp hs), ?_, ?_, fun t ht ↦ ?_,
    fun t ht ↦ hstays t ((hkept t).mp ht)⟩
  · rw [← segmentAnswer_untilFirst hd hholds]
    exact finds_evaluateSegment hh.labelled fun s hs ↦ (hholds s hs).reaches
  · refine (surveys_evaluateSegment hh.labelled hreach true hpick hstop).mono ?_
    intro t ht
    obtain ⟨s, hs, hst⟩ := List.mem_flatMap.mp (hsub.subset ht)
    exact List.mem_flatMap.mpr ⟨s, hstarts hs, hst⟩
  · refine (finds_evaluateSegment hh.labelled hreach).of_eq ?_
    rw [Finder.segmentAnswer, hpick, hstop]
    rfl
  · obtain ⟨s, hs, hst⟩ := List.mem_flatMap.mp (List.mem_of_mem_head? ((hnext t).mp ht))
    exact (hkept t).mpr (List.mem_flatMap.mpr ⟨s, hstarts hs, hst⟩)

namespace CutShort

variable {tried more : List Spot} {next kept : List Found}

private theorem pairwise (h : CutShort host segment allowSelf starts scopes tried next kept)
    (hd : host.document.Orderly) (hstarts : ∀ s ∈ starts, host.document.Has s)
    (hapart : starts.Pairwise Spot.Apart) : tried.Pairwise fun a b ↦ ¬b.Reaches a :=
  (pairwise_candidates hd.tree hstarts hapart).sublist h.sublist

private theorem apart (h : CutShort host segment allowSelf starts scopes tried next kept) :
    (next.map Found.spot).Pairwise Spot.Apart := by
  have hlength := h.length_le
  rcases next with _ | ⟨f, _ | ⟨g, rest⟩⟩
  · exact .nil
  · exact List.pairwise_singleton _ f.spot
  · simp at hlength

/-- What is tried below the first match is not above anything that was tried before. -/
theorem pairwise_append (h : CutShort host segment allowSelf starts scopes tried next kept)
    (hd : host.document.Orderly) (htried : tried.Pairwise fun a b ↦ ¬b.Reaches a)
    (hmore : more.Pairwise fun a b ↦ ¬b.Reaches a)
    (hbelow : ∀ t ∈ more, ∃ s ∈ next.map Found.spot, s.Holds t) :
    (tried ++ more).Pairwise fun a b ↦ ¬b.Reaches a := by
  refine List.pairwise_append.mpr ⟨htried, hmore, fun a ha b hb hba ↦ ?_⟩
  obtain ⟨s, hs, hsb⟩ := hbelow b hb
  have hsa : s.Holds a := Relation.TransGen.trans_left hsb hba
  obtain ⟨before, rfl⟩ := h.last s hs
  rcases List.mem_append.mp ha with ha | ha
  · exact (List.pairwise_append.mp htried).2.2 a ha s List.mem_cons_self hsa.reaches
  · rw [List.mem_singleton.mp ha] at hsa
    exact hd.tree.not_holds_self (h.holds s (h.subset hs)).reaches hsa

private theorem below (h : CutShort host segment false starts scopes tried next kept)
    (hd : host.document.Orderly) (hstarts : ∀ s ∈ starts, host.document.Has s)
    (hbelow : ∀ t ∈ more, ∃ s ∈ next.map Found.spot, s.Holds t) :
    ∀ t ∈ tried ++ more, ∃ s ∈ starts, s.Holds t := by
  have htried : ∀ t ∈ tried, ∃ s ∈ starts, s.Holds t := by
    intro t ht
    obtain ⟨s, hs, hst⟩ := List.mem_flatMap.mp (h.sublist.subset ht)
    exact ⟨s, hs, holds_of_mem_candidatesBelow hd.tree (hstarts s hs) hst⟩
  intro t ht
  rcases List.mem_append.mp ht with ht | ht
  · exact htried t ht
  · obtain ⟨s, hs, hst⟩ := hbelow t ht
    obtain ⟨before, rfl⟩ := h.last s hs
    obtain ⟨u, hu, hus⟩ := htried s (List.mem_append_right before List.mem_cons_self)
    exact ⟨u, hu, hus.trans hst⟩

end CutShort

/-- What segments try one below the other when each ends at its first match: no node is at or below
one that comes later, all are below the starts, and without `--f` they are all seen. -/
theorem exists_tried (hh : host.Orderly) (childSearch : Bool)
    (harranged : Arranged m isFirst segments) (hfirst : m.firstOverall = false)
    (hpicks : ∀ segment ∈ segments, segment.pick = none)
    (hscopes : ∀ s ∈ scopes, host.document.root.Holds s) (hstarts : starts ⊆ scopes)
    (hapart : starts.Pairwise Spot.Apart) :
    ∃ tried : List Spot, tried.Pairwise (fun a b ↦ ¬b.Reaches a) ∧
      (isFirst = false → ∀ t ∈ tried, ∃ s ∈ starts, s.Holds t) ∧
      (∀ found, Visits host (evaluateSegments true host childSearch found starts
        (segments.map SegmentPlan.untilFirst)) tried.length) ∧
      ∀ found, Surveys host (evaluateSegments true host childSearch found scopes segments)
        tried := by
  induction segments generalizing isFirst scopes starts with
  | nil => exact ⟨[], .nil, fun _ ↦ nofun, visits_pure, surveys_pure⟩
  | cons segment rest ih =>
    obtain ⟨hplace, -, hstop, hrest⟩ := harranged
    have hd := hh.document
    have hreach : ∀ s ∈ starts, host.document.Has s := fun s hs ↦ (hscopes s (hstarts hs)).reaches
    obtain ⟨tried, next, kept, hcut⟩ := exists_cutShort hh (segment.isFirst && !childSearch)
      (hpicks segment List.mem_cons_self) (hstop.trans hfirst) hscopes hstarts
    obtain ⟨more, hpairwise, hbelow, hvisits, hseen⟩ :=
      ih hrest (fun segment h ↦ hpicks segment (List.mem_cons_of_mem _ h)) hcut.holds hcut.subset
        hcut.apart
    replace hbelow := hbelow rfl
    refine ⟨tried ++ more,
      hcut.pairwise_append hd (hcut.pairwise hd hreach hapart) hpairwise hbelow, ?_, ?_, ?_⟩
    · rintro rfl
      rw [hplace, Bool.false_and] at hcut
      exact hcut.below hd hreach hbelow
    · intro found
      rw [List.map_cons, evaluateSegments, List.length_append]
      refine visits_check.after finds_check (hcut.visits.bind hcut.finds ?_)
      exact (visits_debug _).after (finds_emit _) (visits_unless (hvisits next) hbelow)
    · intro found
      have hkept : ∀ t ∈ more, ∃ s ∈ kept.map Found.spot, s.Holds t := by
        intro t ht
        obtain ⟨s, hs, hst⟩ := hbelow t ht
        exact ⟨s, hcut.subset hs, hst⟩
      exact (surveys_emit .check).bind finds_check (hcut.seen.bind hcut.keeps
        ((surveys_emit _).bind (finds_emit _) (surveys_unless (hseen kept) hkept)))

/-- **Ending at first matches visits no more nodes**, from the same scopes with nothing
remembered. -/
theorem visits_evaluateSegments_le (hh : host.Orderly) (harranged : Arranged m isFirst segments)
    (hfirst : m.firstOverall = false) (hpicks : ∀ segment ∈ segments, segment.pick = none)
    (hscopes : ∀ s ∈ scopes, host.document.root.Holds s) (hapart : scopes.Pairwise Spot.Apart)
    (found : List Found) {pools : Pools} (hpools : pools.entries = []) :
    (evaluateSegments true host childSearch found scopes (segments.map SegmentPlan.untilFirst)
      pools).visits ≤
        (evaluateSegments true host childSearch found scopes segments pools).visits := by
  obtain ⟨tried, hpairwise, -, hvisits, hsurveys⟩ :=
    exists_tried hh childSearch harranged hfirst hpicks hscopes (List.Subset.refl scopes) hapart
  have hright : Right host pools := right_of_entries_eq_nil hpools
  obtain ⟨seen, -, hseen, hlength, -⟩ :=
    hsurveys found pools [] hright (covered_of_entries_eq_nil hpools [])
  have hnodup : tried.Nodup := by
    refine hpairwise.imp fun {a b} hba heq ↦ hba ?_
    rw [heq]
    exact .refl b
  rw [hvisits found pools hright]
  calc tried.length ≤ seen.length := (hnodup.subperm hseen).length_le
    _ ≤ _ := by simpa using hlength

end Evaluation

end

/-! ## Plans -/

namespace QueryPlan

variable {plan : QueryPlan} {raw : String}

theorem reshapes_untilFirst (plan : QueryPlan) (raw : String) :
    plan.Reshapes SegmentPlan.untilFirst (plan.untilFirst raw) :=
  ⟨rfl, fun _ ↦ rfl, fun _ ↦ rfl⟩

/-- The pages that a plan tries for the one that it names. -/
def pagesTried (plan : QueryPlan) (pages : List Spot) : List Spot :=
  if plan.hasPageDirective then
    plan.segments.head?.elim [] fun directive ↦
      goneThrough true (fun page ↦ (NameMatcher.ofQuery directive.nameQuery).accepts page.name)
        pages
  else []

private theorem pagesTried_untilFirst (plan : QueryPlan) (raw : String) (pages : List Spot) :
    (plan.untilFirst raw).pagesTried pages = plan.pagesTried pages := by
  rw [pagesTried, pagesTried, (plan.reshapes_untilFirst raw).hasPageDirective_eq, untilFirst]
  cases plan.segments <;> rfl

end QueryPlan

theorem Host.Orderly.apart_of_start? {host : Host} {plan : QueryPlan} {start : QueryPlan.Start}
    (hh : host.Orderly) (hpage : host.currentPage.kind = .page)
    (hselection : host.document.root ∉ host.selection)
    (h : plan.start? host.document.pages (host.scopes plan.childSearch) = some start) :
    (∀ s ∈ start.scopes, host.document.root.Holds s) ∧ start.scopes.Pairwise Spot.Apart := by
  rcases of_start? h with ⟨-, page, hmem, rfl⟩ | ⟨-, rfl⟩
  · exact ⟨List.forall_mem_singleton.mpr (Document.holds_of_mem_pages hmem),
      List.pairwise_singleton _ page⟩
  · exact ⟨fun s hs ↦ hh.holds_of_mem_scopes hpage hselection hs,
      hh.pairwise_scopes plan.childSearch⟩

namespace Evaluation

private theorem visits_findPage (matcher : NameMatcher) (pages : List Spot) (pools : Pools) :
    (findPage matcher pages pools).visits =
      (goneThrough true (fun page ↦ matcher.accepts page.name) pages).length := by
  induction pages with
  | nil => rfl
  | cons page rest ih =>
    rw [findPage, goneThrough, List.length_cons, Bool.true_and]
    refine (Trace.visits_visit _).trans (congrArg (· + 1) ?_)
    change (ite (matcher.accepts page.name = true) (pure (some page)) (findPage matcher rest)
      pools).visits = _
    split
    · rfl
    · exact ih

/-- A plan visits the pages that it tries for the one that it names, and then what its segments
do. -/
theorem visits_evaluatePlan (bulk : Bool) (host : Host) (plan : QueryPlan) (pools : Pools) :
    (evaluatePlan bulk host plan pools).visits =
      (plan.pagesTried host.document.pages).length +
        match plan.start? host.document.pages (host.scopes plan.childSearch) with
        | none => 0
        | some start => (evaluateSegments bulk host plan.childSearch start.found start.scopes
            plan.steps pools).visits := by
  have hend : ∀ (x : Search (List Found)) (page : Option Spot),
      ((do
        let found ← x
        let found ← liftExcept (finish plan found)
        pure (found, page) : Search (List Found × Option Spot)) pools).visits =
          (x pools).visits := by
    intro x page
    refine Trace.visits_andThen_of_silent (fun r ↦ ?_) (x pools)
    refine (Trace.visits_andThen_of_silent (fun _ ↦ rfl) _).trans ?_
    exact Trace.visits_andThen_of_silent (fun _ ↦ rfl) _
  rw [evaluatePlan, pagesTried, start?, steps, pageAmong?]
  cases hdirective : plan.hasPageDirective with
  | false => exact (hend _ none).trans (Nat.zero_add _).symm
  | true =>
    obtain ⟨directive, rest, hsegments⟩ : ∃ directive rest, plan.segments = directive :: rest := by
      refine List.exists_cons_of_ne_nil fun hnil ↦ ?_
      rw [hasPageDirective, hnil] at hdirective
      cases hdirective
    rw [hsegments]
    refine (visits_bind (result_findPage _ _ pools)).trans ?_
    rw [visits_findPage]
    simp only [if_true, List.head?_cons, Option.elim_some, Option.bind_some, List.tail_cons]
    cases host.document.pages.find? _ with
    | none => rfl
    | some page => exact congrArg _ (hend _ (some page))

private theorem visits_trace_untilFirst_le {host : Host} {plan : QueryPlan} {m : QueryModifiers}
    (hh : host.Orderly) (hpage : host.currentPage.kind = .page)
    (hselection : host.document.root ∉ host.selection)
    (harranged : Arranged m true plan.segments) (hfirst : m.firstOverall = false)
    (hpicks : ∀ segment ∈ plan.segments, segment.pick = none) (raw : String) :
    ((plan.untilFirst raw).trace host).visits ≤ (plan.trace host).visits := by
  have hreshapes := plan.reshapes_untilFirst raw
  rw [trace, trace, Trace.visits_andThen_of_silent (fun _ ↦ rfl),
    Trace.visits_andThen_of_silent (fun _ ↦ rfl), visits_evaluatePlan, visits_evaluatePlan,
    pagesTried_untilFirst, hreshapes.start?_eq, hreshapes.steps_eq]
  have hchild : (plan.untilFirst raw).childSearch = plan.childSearch := rfl
  rw [hchild]
  refine Nat.add_le_add_left ?_ _
  cases hstart : plan.start? host.document.pages (host.scopes plan.childSearch) with
  | none => exact Nat.le_refl 0
  | some start =>
    obtain ⟨hscopes, hapart⟩ := hh.apart_of_start? hpage hselection hstart
    exact visits_evaluateSegments_le hh harranged.steps hfirst
      (fun segment h ↦ hpicks segment (mem_segments_of_mem_steps h)) hscopes hapart _ rfl

end Evaluation

/-! ## Answers -/

namespace Evaluation.Finder

private theorem exists_segmentsAnswer_of_pick (find : Finder) (childSearch : Bool)
    (found : List Found)
    (scopes : List Spot) {segments : List SegmentPlan}
    (hpicks : ∀ segment ∈ segments, segment.pick = none) :
    ∃ result, find.segmentsAnswer childSearch found scopes segments = .ok result := by
  induction segments generalizing found scopes with
  | nil => exact ⟨found, rfl⟩
  | cons segment rest ih =>
    obtain ⟨kept, hkept⟩ : ∃ kept,
        find.segmentAnswer segment (segment.isFirst && !childSearch) scopes = .ok kept := by
      rw [segmentAnswer, hpicks segment List.mem_cons_self]
      exact ⟨_, rfl⟩
    rw [segmentsAnswer, hkept]
    change ∃ result, (if kept.isEmpty then pure [] else _) = _
    split
    · exact ⟨[], rfl⟩
    · exact ih kept _ fun segment h ↦ hpicks segment (List.mem_cons_of_mem _ h)

end Evaluation.Finder

private theorem take_one_distinct (found : List Found) : (distinct found).take 1 = found.take 1 :=
    by
  cases found <;> rfl

private theorem segmentsAnswer_untilFirst {host : Host} {segments : List SegmentPlan}
    {childSearch : Bool}
    {found all first : List Found} {scopes : List Spot} (hd : host.document.Orderly)
    (hsingle : segments.length ≤ 1) (hpicks : ∀ segment ∈ segments, segment.pick = none)
    (hstops : ∀ segment ∈ segments, segment.stopAtFirst = false)
    (hscopes : ∀ s ∈ scopes, host.document.root.Holds s) (hfound : found.length ≤ 1)
    (hall : (finder true host).segmentsAnswer childSearch found scopes segments = .ok all)
    (hfirst : (finder true host).segmentsAnswer childSearch found scopes
      (segments.map SegmentPlan.untilFirst) = .ok first) :
    first = all.take 1 := by
  rcases segments with _ | ⟨segment, _ | ⟨_, _⟩⟩
  · obtain rfl := Except.ok.inj (hall.symm.trans hfirst)
    obtain rfl := Except.ok.inj hfirst
    exact (List.take_of_length_le hfound).symm
  · rw [Finder.segmentsAnswer_singleton, Finder.segmentAnswer, hpicks segment List.mem_cons_self,
      hstops segment List.mem_cons_self] at hall
    rw [List.map_singleton, Finder.segmentsAnswer_singleton, segmentAnswer_untilFirst hd hscopes]
      at hfirst
    obtain rfl := Except.ok.inj hall
    obtain rfl := Except.ok.inj hfirst
    exact (take_one_distinct _).symm
  · simp at hsingle

/-- A plan without picks has an answer, with and without `--f`. If at most one of its segments looks
for layers, the answer with `--f` is the first result without it. -/
theorem Host.Orderly.exists_answer_untilFirst {host : Host} {plan : QueryPlan}
    (hh : host.Orderly) (hpage : host.currentPage.kind = .page)
    (hselection : host.document.root ∉ host.selection) (hfinal : plan.finalPick = none)
    (hpicks : ∀ segment ∈ plan.segments, segment.pick = none)
    (hstops : ∀ segment ∈ plan.segments, segment.stopAtFirst = false) (raw : String) :
    ∃ all first, host.answer true plan = .ok all ∧
      host.answer true (plan.untilFirst raw) = .ok first ∧
      (plan.steps.length ≤ 1 → first.1 = all.1.take 1) := by
  have hchild : (plan.untilFirst raw).childSearch = plan.childSearch := rfl
  have hreshapes := plan.reshapes_untilFirst raw
  rw [answer, answer, Finder.answer_eq, Finder.answer_eq, hchild, hreshapes.start?_eq,
    hreshapes.steps_eq]
  cases hstart : plan.start? host.document.pages (host.scopes plan.childSearch) with
  | none => exact ⟨_, _, rfl, rfl, fun _ ↦ rfl⟩
  | some start =>
    dsimp only
    have hsteps : ∀ segment ∈ plan.steps, segment ∈ plan.segments := fun _ h ↦
      mem_segments_of_mem_steps h
    have hsteps' : ∀ segment ∈ plan.steps.map SegmentPlan.untilFirst, segment.pick = none := by
      intro segment h
      obtain ⟨_, -, rfl⟩ := List.mem_map.mp h
      rfl
    obtain ⟨all, hall⟩ := (finder true host).exists_segmentsAnswer_of_pick plan.childSearch
      start.found start.scopes fun segment h ↦ hpicks segment (hsteps segment h)
    obtain ⟨first, hfirst⟩ := (finder true host).exists_segmentsAnswer_of_pick plan.childSearch
      start.found start.scopes hsteps'
    have hfinish : ∀ found, finish plan found = .ok found := by
      intro found
      rw [finish, hfinal]
      rfl
    obtain ⟨hscopes, -⟩ := hh.apart_of_start? hpage hselection hstart
    have hlength : start.found.length ≤ 1 := by
      rcases of_start? hstart with ⟨-, page, -, rfl⟩ | ⟨-, rfl⟩
      · exact Nat.le_refl 1
      · exact Nat.zero_le 1
    refine ⟨(all, start.page), (first, start.page), ?_, ?_, fun hsingle ↦ ?_⟩
    · rw [hall]
      change finish plan all >>= _ = _
      rw [hfinish]
      rfl
    · rw [hfirst]
      rfl
    · exact segmentsAnswer_untilFirst hh.document hsingle
        (fun segment h ↦ hpicks segment (hsteps segment h))
        (fun segment h ↦ hstops segment (hsteps segment h)) hscopes hlength hall hfirst

/-! ## Searches -/

section

variable {host : Host} {query : String} {plan : QueryPlan} {m m' : Monitor}

/-- **Stopping at the first match is a faithful short circuit.** A query for all matches and the
same query with `--f` both come to an answer. The second one visits no more nodes, and if at most
one segment looks for layers, its result is the first one of all. -/
theorem Engine.search_until_first (hh : host.Orderly) (hpage : host.currentPage.kind = .page)
    (hselection : host.document.root ∉ host.selection) (hplan : parseQuery query = .ok plan)
    (hall : KeepsAll query) (hclosed : Even (query.toList.count '"')) (hm : m.Calm)
    (hm' : m'.Calm) :
    ∃ r first, (Engine.new.search host query m).1 = .ok r ∧
      (Engine.new.search host (query ++ " --f") m').1 = .ok first ∧ first.visited ≤ r.visited ∧
      (plan.steps.length ≤ 1 → first.results = r.results.take 1) := by
  obtain ⟨hfirst, hfinal, hpicks⟩ := picks_nothing hplan hall
  have harranged := arranged_of_parseQuery hplan
  have hplan' := parseQuery_append_first hplan hclosed
  cases hempty : plan.isEmpty with
  | true =>
    have hsearch := @outcome_search .new host query plan m hm hplan
    have hsearch' := @outcome_search .new host (query ++ " --f") _ m' hm' hplan'
    rw [hempty] at hsearch
    rw [(plan.reshapes_untilFirst _).isEmpty_eq, hempty] at hsearch'
    exact ⟨{}, {}, hsearch, hsearch', Nat.le_refl 0, fun _ ↦ rfl⟩
  | false =>
    obtain ⟨hdocument, hcurrent, hselected⟩ := host.exposed_fields plan.modifiers.includesHidden
    have hexposed := hh.exposed plan.modifiers.includesHidden
    have hpage' := hcurrent ▸ hpage
    have hselection' := hdocument ▸ hselected ▸ hselection
    obtain ⟨all, one, hanswer, hanswer', hone⟩ := hexposed.exists_answer_untilFirst hpage'
      hselection' hfinal hpicks (fun segment h ↦ (harranged.stopAtFirst_eq segment h).trans hfirst)
      (query ++ " --f")
    obtain ⟨r, hr, rfl⟩ := exists_search_of_answer hh.labelled hm hplan hanswer
    obtain ⟨first, hr', rfl⟩ := exists_search_of_answer hh.labelled hm' hplan' hanswer'
    refine ⟨r, first, hr, hr', ?_, hone⟩
    rw [visited_search_new hm hplan hempty hr,
      visited_search_new hm' hplan' ((plan.reshapes_untilFirst _).isEmpty_eq.trans hempty) hr']
    exact visits_trace_untilFirst_le hexposed hpage' hselection' harranged hfirst hpicks _

/-- For instance the title of a card, which is one segment. -/
theorem Engine.search_until_first_cards :
    ∃ r first, (Engine.new.search .ofCards "Title" {}).1 = .ok r ∧
      (Engine.new.search .ofCards ("Title" ++ " --f") {}).1 = .ok first ∧
      first.visited ≤ r.visited ∧ first.results = r.results.take 1 := by
  have hpieces : cleanPieces "Title" = .ok [⟨.start, "Title".toList, []⟩] := by rfl
  obtain ⟨plan, hplan, hsteps⟩ : ∃ plan, parseQuery "Title" = .ok plan ∧
      plan.steps.length ≤ 1 := ⟨_, rfl, Nat.le_refl 1⟩
  have hall : KeepsAll "Title" := by
    intro pieces h p hp w hw
    obtain rfl := Except.ok.inj (hpieces.symm.trans h)
    obtain rfl := List.mem_singleton.mp hp
    cases hw
  obtain ⟨r, first, hr, hfirst, hvisited, hresults⟩ := search_until_first Host.orderly_ofCards rfl
    nofun hplan hall (by decide) Monitor.calm_default Monitor.calm_default
  exact ⟨r, first, hr, hfirst, hvisited, hresults hsteps⟩

end

end SceneSearch
