import SceneSearch.Proofs.Query.Directive
import SceneSearch.Proofs.Search.Undisturbed

/-!
# Searching on a page that the query names

A page directive takes the place of the page that is shown and of the selection. What comes behind
it is evaluated as if the page that it names were shown and nothing selected: the page is the only
scope, it does not match itself, and of the host nothing else is read than whether it hides the
invisible children of instances. The two evaluations go through the same events from there on, so
they are compared as they are, and not by what they find; this leaves the document free to be as
disorderly as it likes.
-/

namespace SceneSearch

open QueryPlan

namespace Evaluation

variable {host other : Host} {bulk first allowSelf : Bool} {scopes : List Spot}

/-! ## Segments behind a directive -/

/-- Behind a directive segments are evaluated as below a page that is shown: in neither case does a
scope match itself. -/
theorem evaluateSegments_below (h : other.skipsInstanceChildren = host.skipsInstanceChildren)
    (m : QueryModifiers) {placed : List PlacedPiece} (hne : placed ≠ []) (isFirst : Bool)
    (found found' : List Found) (scopes : List Spot) :
    evaluateSegments bulk host false found scopes (segmentsOf m false placed) =
      evaluateSegments bulk other true found' scopes (segmentsOf m isFirst placed) := by
  induction placed generalizing isFirst found found' scopes with
  | nil => exact absurd rfl hne
  | cons piece rest ih =>
    have hsegment : evaluateSegment bulk other (segmentOf m piece isFirst rest.isEmpty) false
        scopes = evaluateSegment bulk host (segmentOf m piece false rest.isEmpty) false scopes :=
      evaluateSegment_congr h (segmentOf m piece false rest.isEmpty) isFirst
    have hself : ((segmentOf m piece isFirst rest.isEmpty).isFirst && !true) = false :=
      Bool.and_false _
    rw [segmentsOf, segmentsOf, evaluateSegments, evaluateSegments, hself, hsegment]
    refine congrArg (check >>= ·) (funext fun _ ↦ ?_)
    refine congrArg
      (evaluateSegment bulk host (segmentOf m piece false rest.isEmpty) false scopes >>= ·)
      (funext fun kept ↦ ?_)
    refine congrArg (debug _ >>= ·) (funext fun _ ↦ ?_)
    rcases rest with _ | ⟨next, rest⟩
    · rfl
    · rw [ih (List.cons_ne_nil next rest) false kept kept]

/-! ## The page -/

theorem result_findPage (matcher : NameMatcher) (pages : List Spot) (pools : Pools) :
    (findPage matcher pages pools).result =
      .ok (pages.find? fun page ↦ matcher.accepts page.name, pools) := by
  induction pages with
  | nil => rfl
  | cons page rest ih =>
    rw [List.find?_cons, findPage]
    cases matcher.accepts page.name with
    | true => rfl
    | false => exact ih

end Evaluation

open Evaluation

/-- The host as it is when a page is shown and nothing is selected. -/
def Host.showingOnly (host : Host) (page : Spot) : Host :=
  { host with currentPage := page, selection := [] }

theorem Host.exposed_showingOnly (host : Host) (page : Spot) (everything : Bool) :
    (host.showingOnly page).exposed everything = (host.exposed everything).showingOnly page := by
  cases everything <;> rfl

variable {m : QueryModifiers} {piece : PlacedPiece} {placed : List PlacedPiece} {raw raw' : String}

/-- The trace of a plan with a directive comes to that of the plan without it on the page. -/
theorem QueryPlan.result_trace_below (hne : placed ≠ [])
    (hsymbol : (segmentOf m piece true false).symbol = .page)
    (hnot : (assembled raw m true placed).hasPageDirective = false) (host : Host)
    (settings : Settings) :
    ((assembled raw' m false (piece :: placed)).trace host settings).result.map Response.told =
      match host.document.pages.find? fun page ↦
          (NameMatcher.ofQuery (segmentOf m piece true false).nameQuery).accepts page.name with
      | none => .ok ([], none)
      | some page =>
        ((assembled raw m true placed).trace (host.showingOnly page) settings).result.map
          fun r ↦ (r.results, some page) := by
  have hempty : placed.isEmpty = false := by simpa using hne
  have hsegments : (assembled raw' m false (piece :: placed)).segments =
      segmentOf m piece true false :: segmentsOf m false placed := by
    change segmentOf m piece true placed.isEmpty :: segmentsOf m false placed = _
    rw [hempty]
  have hdirective : (assembled raw' m false (piece :: placed)).hasPageDirective = true := by
    rw [hasPageDirective, hsegments]
    exact beq_iff_eq.mpr hsymbol
  rw [trace, Trace.result_andThen, evaluatePlan, hdirective, hsegments]
  dsimp only
  rw [bind_apply, Trace.result_andThen, result_findPage]
  dsimp only
  rcases host.document.pages.find? _ with _ | page
  · rfl
  · dsimp only
    -- both go on from the page, and end in the same way
    have hscopes : (host.showingOnly page).scopes true = [page] := rfl
    have heval := @evaluateSegments_below host (host.showingOnly page) settings.bulk rfl m placed
      hne true [⟨page, page.path⟩] [] [page]
    have hfinish : finish (assembled raw' m false (piece :: placed)) =
        finish (assembled raw m true placed) := by
      funext found
      simp only [finish, assembled, hempty, List.isEmpty_cons]
    rw [trace, Trace.result_andThen, evaluatePlan, hnot]
    simp only [assembled] at hfinish ⊢
    rw [hscopes, hfinish, heval, bind_apply, bind_apply, Trace.result_andThen,
      Trace.result_andThen]
    rcases (evaluateSegments settings.bulk (host.showingOnly page) true [] [page]
      (segmentsOf m true placed) settings.pools).result with fault | ⟨found, pools⟩
    · rfl
    · dsimp only
      rcases finish _ found with fault | kept <;> rfl

/-- **A page directive takes the place of the page that is shown and of the selection.** A search
with a directive in front of a query behind a slash tells what a search for that query alone tells
on a host that shows the first page with a name that matches, with nothing selected, and it tells
that page; without such a page it tells nothing. So it does not matter which page is shown and what
is selected. -/
theorem Engine.told_search_below_page {page query : String} {plan : QueryPlan}
    (hpage : PageDirective page) (hslash : query.toList.head? = some '/')
    (hplan : parseQuery query = .ok plan) (hnot : plan.hasPageDirective = false) (host : Host)
    {m m' : Monitor} (hm : m.Calm) (hm' : m'.Calm) :
    (Engine.new.search host (page ++ query) m).1.map Response.told =
      match host.document.pages.find? fun p ↦
          (NameMatcher.ofQuery (pageQuery page)).accepts p.name with
      | none => .ok ([], none)
      | some p =>
        (Engine.new.search (host.showingOnly p) query m').1.map fun r ↦ (r.results, some p) := by
  obtain ⟨modifiers, piece, placed, hne, rfl, hwhole, hsymbol, hname⟩ :=
    exists_plans_below hpage hslash hplan
  have hempty : (assembled query modifiers true placed).isEmpty = false := by
    obtain ⟨first, rest, rfl⟩ := List.exists_cons_of_ne_nil hne
    rfl
  have hdocument := (host.exposed_fields modifiers.includesHidden).1
  have hbelow := @result_trace_below modifiers piece placed query (page ++ query) hne hsymbol hnot
    (host.exposed modifiers.includesHidden) {}
  rw [hname, hdocument] at hbelow
  rw [told_search_new hm hwhole rfl]
  refine hbelow.trans ?_
  rcases host.document.pages.find? _ with _ | p
  · rfl
  · have halone := @told_search_new (host.showingOnly p) query _ m' hm' hplan hempty
    rw [host.exposed_showingOnly] at halone
    -- of the search alone all but its page is told, which it has none of
    have htold : ∀ r : Except SearchFault Response, r.map (fun r ↦ (r.results, some p)) =
        (r.map Response.told).map fun told ↦ (told.1, some p) := by
      rintro (fault | r) <;> rfl
    dsimp only
    rw [htold, htold, halone]
    rfl

/-- For instance a card whose page is named, while its title is selected. -/
theorem Engine.told_search_below_page_cards :
    ∃ r, (Engine.new.search (Host.ofCards.showingOnly Document.cardPage) "//Card" {}).1 = .ok r ∧
      r.nodes = [Document.card] ∧
      (Engine.new.search (Host.ofCards.select [Document.cardTitle]) ("#Home" ++ "//Card") {}).1.map
        Response.told = .ok (r.results, some Document.cardPage) := by
  have hpage : PageDirective "#Home" := by
    refine ⟨rfl, by decide, fun before after h ↦ ?_, [⟨.start, "#Home".toList, []⟩], rfl, by simp⟩
    have hslash : '/' ∈ "#Home".toList := h ▸ List.mem_append_right before List.mem_cons_self
    exact absurd hslash (by decide)
  obtain ⟨r, hr, hnodes⟩ : ∃ r, (Engine.new.search (Host.ofCards.showingOnly Document.cardPage)
      "//Card" {}).1 = .ok r ∧ r.nodes = [Document.card] := ⟨_, rfl, rfl⟩
  refine ⟨r, hr, hnodes, ?_⟩
  have htold := @told_search_below_page "#Home" "//Card" _ hpage rfl rfl rfl
    (Host.ofCards.select [Document.cardTitle]) {} {} Monitor.calm_default Monitor.calm_default
  refine htold.trans ?_
  change (Engine.new.search (Host.ofCards.showingOnly Document.cardPage) "//Card" {}).1.map _ = _
  rw [hr]
  rfl

end SceneSearch
