import SceneSearch.Proofs.Query.Continuation
import SceneSearch.Proofs.Search.Nesting

/-!
# Searching below what was found

The user may search, select what was found and search below it, or search with one query that goes
on where the first one ended. The two differ inside: selected nodes that are below other ones are
left out of the scopes, while the matches of a segment are all scopes of the next one. They come to
the same results, with the same paths and in the same order, since inner scopes add nothing to what
outer ones find.

Without modifiers what a query finds is a recursion over its pieces, `drill`, which cannot fail. A
query that goes on behind another one is a recursion that goes on, which is `drill_append`.
-/

namespace SceneSearch

open Evaluation QueryPlan

/-! ## Queries without modifiers -/

/-- What pieces without modifiers find below scopes, one after the other; `found` is what led to
these. -/
def drill (host : Host) (allowSelf : Bool) (found : List Found) (scopes : List Spot) :
    List PlacedPiece → List Found
  | [] => found
  | piece :: rest =>
    let kept := distinct
      ((finder true host).foundIn (segmentOf {} piece false false) allowSelf scopes)
    drill host false kept (kept.map Found.spot) rest

section

variable {host : Host} {allowSelf isFirst isFinal childSearch : Bool} {found : List Found}
  {scopes : List Spot} {piece : PlacedPiece} {placed front back : List PlacedPiece} {d : Document}

@[simp] theorem drill_nil (host : Host) (allowSelf : Bool) (placed : List PlacedPiece) :
    drill host allowSelf [] [] placed = [] := by
  induction placed generalizing allowSelf with
  | nil => rfl
  | cons piece rest ih => exact ih false

theorem drill_append (hne : front ≠ []) :
    drill host allowSelf found scopes (front ++ back) =
      drill host false (drill host allowSelf found scopes front)
        ((drill host allowSelf found scopes front).map Found.spot) back := by
  induction front generalizing allowSelf found scopes with
  | nil => exact absurd rfl hne
  | cons piece rest ih =>
    rcases rest with _ | ⟨next, rest⟩
    · rfl
    · rw [List.cons_append, drill]
      exact ih (List.cons_ne_nil next rest)

/-- A segment without modifiers picks nothing and does not end at its first match, wherever it
stands. -/
theorem segmentAnswer_segmentOf (hfree : piece.piece.modifiers = []) (scopes : List Spot) :
    (finder true host).segmentAnswer (segmentOf {} piece isFirst isFinal) allowSelf scopes =
      .ok (distinct ((finder true host).foundIn (segmentOf {} piece false false) allowSelf
        scopes)) := by
  have hpick : (segmentOf {} piece isFirst isFinal).pick = none := by
    rw [segmentOf, pickFor, hfree]
    cases isFinal <;> rfl
  simp only [Finder.segmentAnswer, hpick]
  rfl

private theorem segmentsAnswer_segmentsOf (host : Host) (isFirst childSearch : Bool)
    (found : List Found)
    (scopes : List Spot) (hfree : ∀ p ∈ placed, p.piece.modifiers = []) :
    (finder true host).segmentsAnswer childSearch found scopes (segmentsOf {} isFirst placed) =
      .ok (drill host (isFirst && !childSearch) found scopes placed) := by
  induction placed generalizing isFirst found scopes with
  | nil => rfl
  | cons piece rest ih =>
    have hrest : ∀ p ∈ rest, p.piece.modifiers = [] := fun p hp ↦
      hfree p (List.mem_cons_of_mem piece hp)
    rw [segmentsOf, Finder.segmentsAnswer,
      segmentAnswer_segmentOf (hfree piece List.mem_cons_self), drill]
    generalize hkept : distinct ((finder true host).foundIn (segmentOf {} piece false false)
      (isFirst && !childSearch) scopes) = kept
    have hfirst : (segmentOf {} piece isFirst rest.isEmpty).isFirst = isFirst := rfl
    rw [hfirst, hkept]
    change (if kept.isEmpty then pure [] else _) = _
    rw [ih false kept (kept.map Found.spot) hrest]
    split
    · rename_i hempty
      rw [List.isEmpty_iff.mp hempty]
      exact congrArg Except.ok (drill_nil host false rest).symm
    · rfl

theorem nests_drill (host : Host) (allowSelf : Bool) (found : List Found) (hd : d.Orderly)
    (hne : placed ≠ []) (h : d.Nests scopes) :
    d.Nests ((drill host allowSelf found scopes placed).map Found.spot) := by
  induction placed generalizing allowSelf found scopes with
  | nil => exact absurd rfl hne
  | cons piece rest ih =>
    have hdefault : (segmentOf {} piece false false).visibility = .default := rfl
    rw [drill]
    rcases rest with _ | ⟨next, rest⟩
    · exact h.step hd hdefault
    · exact ih false _ (List.cons_ne_nil next rest) (h.step hd hdefault)

private theorem nodup_drill (host : Host) (allowSelf : Bool) (found : List Found)
    (scopes : List Spot)
    (hne : placed ≠ []) :
    ((drill host allowSelf found scopes placed).map fun f ↦ f.spot.place).Nodup := by
  induction placed generalizing allowSelf found scopes with
  | nil => exact absurd rfl hne
  | cons piece rest ih =>
    rw [drill]
    rcases rest with _ | ⟨next, rest⟩
    · exact nodup_keys_firstOccurrences
    · exact ih false _ _ (List.cons_ne_nil next rest)

private theorem drill_select (nodes : List Spot) :
    drill (host.select nodes) allowSelf found scopes placed =
      drill host allowSelf found scopes placed := by
  induction placed generalizing allowSelf found scopes with
  | nil => rfl
  | cons piece rest ih => exact ih

end

/-! ## Selecting what was found -/

section

variable {host : Host} {allowSelf childSearch : Bool} {found kept : List Found}
  {scopes nodes : List Spot}  {piece : PlacedPiece} {front back : List PlacedPiece}

theorem Host.Orderly.scopes_select (hh : host.Orderly) (h : host.document.Nests nodes)
    (hnodup : (nodes.map Spot.place).Nodup) (hne : nodes ≠ []) :
    (host.select nodes).scopes true = pruneNested nodes := by
  have hwanted : (nodes.flatMap fun s ↦ s :: (if true then [] else s.anchor?.toList)) = nodes := by
    simp
  have hdistinct : distinctSpots nodes = nodes := firstOccurrences_eq_self hnodup (by simp)
  have hempty : ¬nodes.isEmpty = true := by simpa using hne
  have hkept : ¬(pruneNested nodes).isEmpty = true := by
    obtain ⟨s, rest, rfl⟩ := List.exists_cons_of_ne_nil hne
    obtain ⟨u, -, hu, -⟩ := hh.document.tree.exists_mem_pruneNested
      (fun s hs ↦ (h.holds s hs).reaches) h.outerFirst (List.nil_append (s :: rest)).symm
    rw [List.isEmpty_iff]
    exact List.ne_nil_of_mem hu
  have hselection : (host.select nodes).selection = nodes := rfl
  rw [Host.scopes, initialScopes, hselection, if_neg hempty, hwanted]
  dsimp only
  rw [hdistinct, if_neg hkept]

/-- **Below what was found**: searching below the selected results finds what the pieces find that
go on behind those of the first search. -/
theorem Host.Orderly.drill_below (hh : host.Orderly) (hscopes : host.document.Nests scopes)
    (hfront : front ≠ []) (hdirect : piece.direct = false)
    (hfound : drill host allowSelf found scopes front = kept) (hkept : kept ≠ []) :
    drill (host.select (kept.map Found.spot)) false []
        ((host.select (kept.map Found.spot)).scopes true) (piece :: back) =
      drill host allowSelf found scopes (front ++ piece :: back) := by
  subst hfound
  have hnests := nests_drill host allowSelf found hh.document hfront hscopes
  have hnodup : (((drill host allowSelf found scopes front).map Found.spot).map
      Spot.place).Nodup := by
    rw [List.map_map]
    exact nodup_drill host allowSelf found scopes hfront
  have hdefault : (segmentOf {} piece false false).visibility = .default := rfl
  have hinner := hnests.distinct_pruneNested hh.document host hdefault hdirect
  rw [hh.scopes_select hnests hnodup (by simpa using hkept), drill_select, drill_append hfront,
    drill, drill, hinner]

end

/-! ## Searches -/

section

variable {childSearch : Bool} {raw : String} {placed : List PlacedPiece}

theorem Host.answer_plain (host : Host) (hfree : ∀ p ∈ placed, p.piece.modifiers = [])
    (hdirective : (plain raw childSearch placed).hasPageDirective = false) :
    host.answer true (plain raw childSearch placed) =
      .ok (drill host (!childSearch) [] (host.scopes childSearch) placed, none) := by
  rw [answer, Finder.answer, hdirective]
  dsimp only [plain]
  rw [segmentsAnswer_segmentsOf host true childSearch [] (host.scopes childSearch) hfree]
  rfl

/-- Without modifiers a search has the results that the pieces find below the scopes of the host. -/
theorem Session.results_search_plain {s : Session} {query : String} {m : Monitor}
    (h : s.Reached false) (hh : s.host.Orderly) (hm : m.Calm)
    (hplan : parseQuery query = .ok (plain query childSearch placed))
    (hfree : ∀ p ∈ placed, p.piece.modifiers = [])
    (hdirective : (plain query childSearch placed).hasPageDirective = false) :
    (s.search query m).1.map Response.results =
      .ok (drill s.host (!childSearch) [] (s.host.scopes childSearch) placed) := by
  obtain ⟨hsettings, htruthful⟩ := h.keepsUp
  have htold := (htruthful rfl).told_search hsettings hh hm hplan
  have hshown : s.host.exposed (plain query childSearch placed).modifiers.includesHidden =
      s.host := rfl
  rw [hshown, s.host.answer_plain hfree hdirective] at htold
  have hsearch : (s.search query m).1 = (s.engine.search s.host query m).1 := by rw [search_eq]
  rw [hsearch]
  generalize (s.engine.search s.host query m).1 = outcome at htold
  rcases outcome with fault | r
  · cases htold
  · exact congrArg Except.ok (congrArg Prod.fst (Except.ok.inj htold))

theorem hasPageDirective_plain_append (other : String) (back : List PlacedPiece)
    (hne : placed ≠ []) :
    (plain other childSearch (placed ++ back)).hasPageDirective =
      (plain raw childSearch placed).hasPageDirective := by
  obtain ⟨piece, rest, rfl⟩ := List.exists_cons_of_ne_nil hne
  rfl

end

section

variable {s : Session} {first second : String} {c : Char} {m m' m'' : Monitor} {r : Response}

/-- **Searching below what was found is searching with one query.** If a search without modifiers
finds something, and its results are selected, then a second query behind a slash gives the results
of both queries with a slash between them on the first selection: the same nodes, with the same
paths, in the same order. -/
theorem Session.search_below_selection (h : s.Reached false) (hh : s.host.Orderly)
    (hpage : s.host.currentPage.kind = .page)
    (hselection : s.host.document.root ∉ s.host.selection)
    (hfirst : ModifierFree first) (hsecond : ModifierFree second)
    (hclosed : Even (first.toList.count '"')) (hne : trim first.toList ≠ [])
    (hlast : (trim first.toList).getLast? ≠ some '/')
    (hdirective : ∀ plan, parseQuery first = .ok plan → plan.hasPageDirective = false)
    (hc : (trim second.toList).head? = some c) (hslash : c ≠ '/') (hmark : c ≠ '#')
    (hm : m.Calm) (hm' : m'.Calm) (hm'' : m''.Calm)
    (hr : (s.search first m).1 = .ok r) (hfound : r.nodes ≠ []) :
    ∃ results,
      (((s.after (.search first m)).after (.select r.nodes)).search ("/" ++ second) m').1.map
        Response.results = .ok results ∧
      (s.search (first ++ "/" ++ second) m'').1.map Response.results = .ok results := by
  obtain ⟨childSearch, front, piece, back, hplan, hplan', hplan'', hfront, hfree, hdirect,
    hsymbol⟩ := exists_plans hfirst hsecond hclosed hne hlast hc hslash hmark
  -- no plan names a page: neither that of the first query, nor the first piece of the second one
  have hnames := hdirective _ hplan
  have hnames' : (plain ("/" ++ second) true (piece :: back)).hasPageDirective = false :=
    beq_eq_false_iff_ne.mpr hsymbol
  have hnames'' := (hasPageDirective_plain_append (first ++ "/" ++ second) (piece :: back)
    hfront).trans hnames
  have hresults : r.results =
      drill s.host (!childSearch) [] (s.host.scopes childSearch) front := by
    have hsearch := results_search_plain h hh hm hplan
      (fun p hp ↦ hfree p (List.mem_append_left _ hp)) hnames
    rw [hr] at hsearch
    exact Except.ok.inj hsearch
  have hnests : s.host.document.Nests (s.host.scopes childSearch) :=
    hh.nests_scopes hpage hselection
  -- the session that the second search goes on from
  have hhost : ((s.after (.search first m)).after (.select r.nodes)).host =
      s.host.select r.nodes := by
    rw [after_search]
    rfl
  have hreached : ((s.after (.search first m)).after (.select r.nodes)).Reached false :=
    (h.act (.search first m) ⟨rfl, hh⟩).act (.select r.nodes) trivial
  have hselected : (s.host.select r.nodes).Orderly := by
    refine ⟨hh.document, hh.currentPage, fun n hn ↦ ?_⟩
    have hkept := nests_drill s.host (!childSearch) [] hh.document hfront hnests
    rw [← hresults] at hkept
    exact (hkept.holds n hn).reaches
  generalize (s.after (.search first m)).after (.select r.nodes) = s' at hhost hreached ⊢
  rw [← hhost] at hselected
  refine ⟨drill s.host (!childSearch) [] (s.host.scopes childSearch) (front ++ piece :: back),
    ?_, results_search_plain h hh hm'' hplan'' hfree hnames''⟩
  rw [results_search_plain hreached hselected hm' hplan'
    (fun p hp ↦ hfree p (List.mem_append_right _ hp)) hnames', hhost]
  refine congrArg Except.ok (hh.drill_below hnests hfront hdirect hresults.symm ?_)
  rintro hnil
  rw [Response.nodes, hnil] at hfound
  exact hfound rfl

/-- For instance the title of a card. -/
theorem Session.search_below_selection_cards :
    ∃ r, ((⟨.ofCards, .new⟩ : Session).search "Card" {}).1 = .ok r ∧ r.nodes = [Document.card] ∧
      ∃ results,
        ((((⟨.ofCards, .new⟩ : Session).after (.search "Card" {})).after (.select r.nodes)).search
          ("/" ++ "Title") {}).1.map Response.results = .ok results ∧
        ((⟨.ofCards, .new⟩ : Session).search ("Card" ++ "/" ++ "Title") {}).1.map
          Response.results = .ok results := by
  have hstart : (⟨.ofCards, .new⟩ : Session).Reached false :=
    .start .ofCards Engine.create_responseCapacity
  have hfirst : ModifierFree "Card" := ⟨[⟨.start, "Card".toList, []⟩], by rfl, by simp⟩
  have hsecond : ModifierFree "Title" := ⟨[⟨.start, "Title".toList, []⟩], by rfl, by simp⟩
  have hplan : ∃ plan, parseQuery "Card" = .ok plan ∧ plan.hasPageDirective = false :=
    ⟨_, rfl, rfl⟩
  obtain ⟨r, hr, hnodes⟩ : ∃ r, ((⟨.ofCards, .new⟩ : Session).search "Card" {}).1 = .ok r ∧
      r.nodes = [Document.card] := ⟨_, rfl, rfl⟩
  refine ⟨r, hr, hnodes, search_below_selection (c := 'T') hstart Host.orderly_ofCards rfl nofun
    hfirst hsecond (by decide) (by decide) (by decide) ?_ (by rfl) (by decide) (by decide)
    Monitor.calm_default Monitor.calm_default Monitor.calm_default hr (by simp [hnodes])⟩
  obtain ⟨plan, hparse, hdirective⟩ := hplan
  rintro _ h
  rwa [← Except.ok.inj (hparse.symm.trans h)]

end

end SceneSearch
