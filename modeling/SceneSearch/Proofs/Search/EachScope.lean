import SceneSearch.Proofs.Query.EachScope
import SceneSearch.Proofs.Search.Drilling
import SceneSearch.Proofs.Search.Narrowing

/-!
# Picks in each scope do not depend on each other

With a number and an `e` behind it a query picks one match of its last piece in each scope that the
pieces before lead to. What is picked in a scope depends on that scope alone: it is what a search
finds that goes on below this scope with the last piece only. So the results of the query are those
of these searches one after the other, without what is repeated.

The scopes share the lookups that are remembered and may lie inside one another, but a lookup that
is remembered is the one that would be made, and what an inner scope picks is dropped only where an
outer one picked it before.
-/

namespace SceneSearch

open Evaluation QueryPlan

section

variable {host : Host} {n : Nat} {isFirst childSearch allowSelf : Bool} {found : List Found}
  {scopes : List Spot} {last : PlacedPiece} {front : List PlacedPiece}

/-! ## The last piece -/

/-- The last segment of a query with a pick in each scope at its end. -/
abbrev lastSegment (n : Nat) (last : PlacedPiece) (isFirst : Bool) : SegmentPlan :=
  segmentOf { indexEach := some n } last isFirst true

/-- What the last piece picks in each of some scopes, together. -/
def pickedIn (host : Host) (n : Nat) (last : PlacedPiece) (scopes : List Spot) :
    Except SearchFault (List (List Found)) :=
  scopes.mapM ((finder true host).pickIn (lastSegment n last false) ⟨.perScope, n⟩ false)

theorem segmentAnswer_lastSegment (isFirst : Bool) (scopes : List Spot) :
    (finder true host).segmentAnswer (lastSegment n last isFirst) false scopes =
      (pickedIn host n last scopes).map fun picked ↦ distinct picked.flatten := rfl

/-- Segments in front of the last one find what their pieces do, and the last one picks below
them. -/
theorem segmentsAnswer_each (hfree : ∀ p ∈ front, p.piece.modifiers = []) (hne : front ≠ [])
    (isFirst : Bool) (found : List Found) (scopes : List Spot) :
    (finder true host).segmentsAnswer childSearch found scopes
        (segmentsOf { indexEach := some n } isFirst (front ++ [last])) =
      (pickedIn host n last ((drill host (isFirst && !childSearch) found scopes front).map
        Found.spot)).map fun picked ↦ distinct picked.flatten := by
  induction front generalizing isFirst found scopes with
  | nil => exact absurd rfl hne
  | cons piece rest ih =>
    have hempty : (rest ++ [last]).isEmpty = false := by cases rest <;> rfl
    have hpiece : (finder true host).segmentAnswer
        (segmentOf { indexEach := some n } piece isFirst false) (isFirst && !childSearch) scopes =
        .ok (distinct ((finder true host).foundIn (segmentOf {} piece false false)
          (isFirst && !childSearch) scopes)) :=
      segmentAnswer_segmentOf (hfree piece List.mem_cons_self) scopes
    rw [List.cons_append, segmentsOf, hempty, Finder.segmentsAnswer, drill]
    have hfirst : (segmentOf { indexEach := some n } piece isFirst false).isFirst = isFirst := rfl
    rw [hfirst, hpiece]
    generalize distinct ((finder true host).foundIn (segmentOf {} piece false false)
      (isFirst && !childSearch) scopes) = kept
    change (if kept.isEmpty then pure [] else _) = _
    split
    · rename_i hkept
      rw [List.isEmpty_iff.mp hkept, List.map_nil, drill_nil]
      rfl
    · rcases rest with _ | ⟨next, rest⟩
      · exact Finder.segmentsAnswer_singleton.trans (segmentAnswer_lastSegment false _)
      · exact ih (fun p hp ↦ hfree p (List.mem_cons_of_mem piece hp)) (List.cons_ne_nil next rest)
          false kept (kept.map Found.spot)

theorem Host.Labelled.has_of_mem_drill (hh : host.Labelled)
    (hfound : ∀ f ∈ found, host.document.Has f.spot)
    (hscopes : ∀ s ∈ scopes, host.document.Has s) :
    ∀ f ∈ drill host allowSelf found scopes front, host.document.Has f.spot := by
  induction front generalizing allowSelf found scopes with
  | nil => exact hfound
  | cons piece rest ih =>
    rw [drill]
    refine ih ?_ fun s hs ↦ ?_
    · intro f hf
      exact hh.document.finder_staysIn.of_mem_foundIn hscopes (mem_of_firstOccurrences hf)
    · obtain ⟨f, hf, rfl⟩ := List.mem_map.mp hs
      exact hh.document.finder_staysIn.of_mem_foundIn hscopes (mem_of_firstOccurrences hf)

/-! ## Answers -/

theorem Host.answer_each {raw raw' : String} (hfree : ∀ p ∈ front, p.piece.modifiers = [])
    (hne : front ≠ []) (hdirective : (plain raw' childSearch front).hasPageDirective = false) :
    host.answer true (assembled raw { indexEach := some n } childSearch (front ++ [last])) =
      (pickedIn host n last ((drill host (!childSearch) [] (host.scopes childSearch) front).map
        Found.spot)).map fun picked ↦ (distinct picked.flatten, none) := by
  have hnames : (assembled raw { indexEach := some n } childSearch
      (front ++ [last])).hasPageDirective = false := by
    obtain ⟨piece, rest, rfl⟩ := List.exists_cons_of_ne_nil hne
    exact hdirective
  rw [answer, Finder.answer, hnames]
  dsimp only [assembled]
  rw [segmentsAnswer_each hfree hne, Bool.true_and]
  cases pickedIn host n last ((drill host (!childSearch) [] (host.scopes childSearch) front).map
    Found.spot) <;> rfl

theorem Host.scopes_select_singleton (host : Host) (s : Spot) :
    (host.select [s]).scopes true = [s] := by
  have hsame : s.same s = true := by simp [Spot.same]
  simp [scopes, select, initialScopes, distinctSpots, firstOccurrences, pruneNested, hsame]

/-- The answer to the last piece alone, below a selected node, is what is picked there. -/
theorem Host.answer_select_each {raw : String} {s : Spot}
    (hsymbol : (lastSegment n last true).symbol ≠ .page) :
    (host.select [s]).answer true (assembled raw { indexEach := some n } true [last]) =
      ((finder true host).pickIn (lastSegment n last false) ⟨.perScope, n⟩ false s).map
        fun picked ↦ (picked, none) := by
  have hnames : (assembled raw { indexEach := some n } true [last]).hasPageDirective = false :=
    beq_eq_false_iff_ne.mpr hsymbol
  have hsegments : (finder true (host.select [s])).segmentsAnswer true [] [s]
      (segmentsOf { indexEach := some n } true [last]) =
        (pickedIn host n last [s]).map fun picked ↦ distinct picked.flatten :=
    Finder.segmentsAnswer_singleton.trans (segmentAnswer_lastSegment true [s])
  rw [answer, Finder.answer, hnames]
  dsimp only [assembled]
  rw [host.scopes_select_singleton, hsegments, pickedIn, List.mapM_cons, List.mapM_nil]
  cases hpicked : (finder true host).pickIn (lastSegment n last false) ⟨.perScope, n⟩ false s with
  | error fault => rfl
  | ok picked =>
    -- one node at most is picked, so nothing is repeated
    have hlength : picked.length ≤ 1 := Finder.yields_length_choose _ _ _ _ picked hpicked
    have hdistinct : distinct [picked].flatten = picked := by
      rw [List.flatten_singleton]
      exact firstOccurrences_eq_self (Finder.unrepeated_of_length_le_one hlength) (by simp)
    change Except.ok (distinct [picked].flatten, none) = _
    rw [hdistinct]
    rfl

end

/-! ## Searches -/

section

variable {first second slashes query : String} {separator : Separator} {host : Host} {n : Nat}
  {plan : QueryPlan} {m m' m'' : Monitor} {r : Response}

/-- A search of visible layers with a new engine that gives a response tells the answer of its
host. -/
theorem Engine.answer_of_search (hh : host.Labelled) (hplan : parseQuery query = .ok plan)
    (hvisible : plan.modifiers.includesHidden = false)
    (hsearch : (Engine.new.search host query m).1 = .ok r) :
    host.answer true plan = .ok r.told := by
  have htold := told_search_new_eq_answer hh m.calm_calmed hplan
  rw [allOrNothing_search.ok r hsearch, hvisible] at htold
  exact htold.symm

theorem Engine.exists_plan_of_search {e : Engine} (hsearch : (e.search host query m).1 = .ok r) :
    ∃ plan, parseQuery query = .ok plan := by
  rw [search] at hsearch
  cases hplan : parseQuery query with
  | error cause =>
    rw [hplan] at hsearch
    cases hsearch
  | ok plan => exact ⟨plan, rfl⟩

private theorem exists_separator (h : slashes = "/" ∨ slashes = "//") :
    ∃ separator : Separator, separator ≠ .start ∧ String.ofList separator.spelling = slashes := by
  rcases h with rfl | rfl
  · exact ⟨.descend, nofun, rfl⟩
  · exact ⟨.direct, nofun, rfl⟩

/-- **Picks in each scope do not depend on each other.** A query with a second one behind a slash or
two, which is one piece, and a number with an `e` at the end, has the results that the second one
has with the number, behind its slashes, below each result of the first one: those below the first
result, then those below the second one, and so on, without nodes that were there before. -/
theorem Engine.search_picks_each_alone (hh : host.Labelled) (hfirst : ModifierFree first)
    (hclosed : Even (first.toList.count '"')) (hne : trim first.toList ≠ [])
    (hlast : (trim first.toList).getLast? ≠ some '/')
    (hdirective : ∀ plan, parseQuery first = .ok plan → plan.hasPageDirective = false)
    (hsecond : SinglePiece second) (hmark : (trim second.toList).head? ≠ some '#')
    (hslashes : slashes = "/" ∨ slashes = "//") (hm' : m'.Calm) (hm'' : m''.Calm)
    (hsearch : (Engine.new.search host
      (first ++ slashes ++ second ++ " --" ++ toString n ++ "e") m).1 = .ok r) :
    ∃ found parts, (Engine.new.search host first m').1 = .ok found ∧
      List.Forall₂ (fun s part ↦ (Engine.new.search (host.select [s])
        (slashes ++ second ++ " --" ++ toString n ++ "e") m'').1 = .ok part) found.nodes parts ∧
      r.results = distinct (parts.flatMap Response.results) := by
  obtain ⟨separator, hseparator, rfl⟩ := exists_separator hslashes
  have hwhole : first ++ String.ofList separator.spelling ++ second ++ " --" ++ toString n ++ "e" =
      first ++ (String.ofList separator.spelling ++ second) ++ eachSuffix n := by
    simp only [eachSuffix, String.append_assoc]
  have hpart : String.ofList separator.spelling ++ second ++ " --" ++ toString n ++ "e" =
      String.ofList separator.spelling ++ second ++ eachSuffix n := by
    simp only [eachSuffix, String.append_assoc]
  rw [hwhole] at hsearch
  rw [hpart]
  -- the number has not too many digits, since the search gives a response
  obtain ⟨_, hparsed⟩ := exists_plan_of_search hsearch
  have hclosed' :
      Even ((first ++ (String.ofList separator.spelling ++ second)).toList.count '"') := by
    rw [String.toList_append, List.count_append]
    exact hclosed.add (hsecond.closed_slashed separator)
  obtain ⟨childSearch, front, last, hplan, hplan', hplan'', hfront, hfree, hsymbol⟩ :=
    exists_plans_each hfirst hclosed hne hlast hsecond hmark hseparator
      (length_le_of_parseQuery hclosed' hparsed)
  have hnames := hdirective _ hplan
  -- what the first query finds
  obtain ⟨found, hfound, htold⟩ :=
    exists_search_of_answer hh hm' hplan (host.answer_plain hfree hnames)
  have hnodes : found.nodes =
      (drill host (!childSearch) [] (host.scopes childSearch) front).map Found.spot :=
    congrArg (List.map Found.spot) (congrArg Prod.fst htold)
  have hhas : ∀ s ∈ found.nodes, host.document.Has s := by
    intro s hs
    rw [hnodes] at hs
    obtain ⟨f, hf, rfl⟩ := List.mem_map.mp hs
    exact hh.has_of_mem_drill (fun _ h ↦ absurd h List.not_mem_nil)
      (fun s hs ↦ hh.has_of_mem_scopes hs) f hf
  -- what the whole query picks below it
  have hanswer := answer_of_search hh hplan'' rfl hsearch
  rw [host.answer_each hfree hfront hnames, ← hnodes] at hanswer
  obtain ⟨picked, hpicked, hresults⟩ : ∃ picked, pickedIn host n last found.nodes = .ok picked ∧
      distinct picked.flatten = r.results := by
    cases hpicked : pickedIn host n last found.nodes with
    | error fault =>
      rw [hpicked] at hanswer
      cases hanswer
    | ok picked =>
      rw [hpicked] at hanswer
      exact ⟨picked, rfl, congrArg Prod.fst (Except.ok.inj hanswer)⟩
  -- each of these picks is what a search finds
  have halone : ∀ s ∈ found.nodes, ∀ b,
      (finder true host).pickIn (lastSegment n last false) ⟨.perScope, n⟩ false s = .ok b →
        ∃ part, (Engine.new.search (host.select [s])
          (String.ofList separator.spelling ++ second ++ eachSuffix n) m'').1 = .ok part ∧
          part.results = b := by
    intro s hs b hb
    have hselected : (host.select [s]).Labelled :=
      ⟨hh.document, hh.currentPage, List.forall_mem_singleton.mpr (hhas s hs)⟩
    obtain ⟨part, hpart', htold'⟩ := exists_search_of_answer hselected hm'' hplan'
      ((Host.answer_select_each hsymbol).trans (congrArg _ hb))
    exact ⟨part, hpart', congrArg Prod.fst htold'⟩
  obtain ⟨parts, hparts, rfl⟩ := exists_forall₂_of_mapM hpicked halone
  exact ⟨found, parts, hfound, hparts, by rw [← hresults, List.flatMap_def]⟩

/-- For instance the first title of each card. -/
theorem Engine.search_picks_each_alone_cards :
    ∃ r found parts, (Engine.new.search .ofCards "Card/Title --1e" {}).1 = .ok r ∧
      (Engine.new.search .ofCards "Card" {}).1 = .ok found ∧
      List.Forall₂ (fun s part ↦
        (Engine.new.search (Host.ofCards.select [s]) "/Title --1e" {}).1 = .ok part)
        found.nodes parts ∧
      r.results = distinct (parts.flatMap Response.results) := by
  have hfirst : ModifierFree "Card" := ⟨[⟨.start, "Card".toList, []⟩], by rfl, by simp⟩
  have hsecond : SinglePiece "Title" := by
    refine ⟨by decide, fun before after h ↦ ?_,
      ⟨[⟨.start, "Title".toList, []⟩], by rfl, by simp⟩, by decide⟩
    have hslash : '/' ∈ "Title".toList := by simp [h]
    exact absurd hslash (by decide)
  have hdirective : ∀ plan, parseQuery "Card" = .ok plan → plan.hasPageDirective = false := by
    rintro _ ⟨⟩
    rfl
  obtain ⟨r, hr⟩ := exists_of_isOk
    (show (Engine.new.search .ofCards "Card/Title --1e" {}).1.isOk = true by decide +kernel)
  obtain ⟨found, parts, hfound, hparts, hresults⟩ := search_picks_each_alone (n := 1)
    Host.orderly_ofCards.labelled hfirst (by decide) (by decide) (by decide) hdirective hsecond
    (by decide) (Or.inl rfl) Monitor.calm_default Monitor.calm_default hr
  exact ⟨r, found, parts, hr, hfound, hparts, hresults⟩

end

end SceneSearch
