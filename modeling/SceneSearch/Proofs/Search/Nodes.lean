import SceneSearch.Proofs.Search.Meaning

/-!
# Matches without their paths

What is said about the results of a query for all matches is mostly said about the nodes, and not
about the paths that are displayed for them. Such a query cannot fail, and its nodes are a plain
recursion over its segments, `Finder.nodes`: each segment keeps the first occurrences of what it
finds from its scopes, and these are the scopes of the next one. A page that the query names is the
only scope of the segments behind the directive.
-/

namespace SceneSearch

open Evaluation

/-- The segments of a plan that look for layers: all, or those behind a page directive. -/
def QueryPlan.steps (plan : QueryPlan) : List SegmentPlan :=
  if plan.hasPageDirective then plan.segments.tail else plan.segments

/-- The first page among some that the first segment names. -/
def QueryPlan.pageAmong? (plan : QueryPlan) (pages : List Spot) : Option Spot :=
  plan.segments.head?.bind fun directive ↦
    pages.find? fun page ↦ (NameMatcher.ofQuery directive.nameQuery).accepts page.name

namespace QueryPlan

variable {plan : QueryPlan} {m : QueryModifiers}

theorem Arranged.steps (h : Arranged m true plan.segments) :
    Arranged m (!plan.hasPageDirective) plan.steps := by
  rw [QueryPlan.steps]
  cases plan.hasPageDirective with
  | false => exact h
  | true =>
    generalize plan.segments = segments at h
    cases segments with
    | nil => trivial
    | cons directive rest => exact h.2.2.2

theorem mem_segments_of_mem_steps {segment : SegmentPlan} (h : segment ∈ plan.steps) :
    segment ∈ plan.segments := by
  rw [steps] at h
  split at h
  · exact List.mem_of_mem_tail h
  · exact h

theorem steps_eq_nil (h : plan.steps = []) :
    plan.hasPageDirective = true ∨ plan.isEmpty = true := by
  rw [steps] at h
  split at h
  · exact Or.inl ‹_›
  · exact Or.inr (List.isEmpty_iff.mpr h)

theorem mem_of_pageAmong? {pages : List Spot} {page : Spot}
    (h : plan.pageAmong? pages = some page) : page ∈ pages := by
  obtain ⟨directive, -, hfind⟩ := Option.bind_eq_some_iff.mp h
  exact List.mem_of_find?_eq_some hfind

/-- Where the segments of a plan that look for layers start. -/
structure Start where
  /-- What is found before any of them. -/
  found : List Found
  /-- The scopes of the first of them. -/
  scopes : List Spot
  /-- The page that the plan names. -/
  page : Option Spot

/-- Where a plan starts: below the page that it names, if there is such a page, or in the given
scopes. -/
def start? (plan : QueryPlan) (pages scopes : List Spot) : Option Start :=
  if plan.hasPageDirective then
    (plan.pageAmong? pages).map fun page ↦ ⟨[⟨page, page.path⟩], [page], some page⟩
  else some ⟨[], scopes, none⟩

/-- A plan starts below a page that it names, which is found, or in the given scopes with
nothing. -/
theorem of_start? {pages scopes : List Spot} {start : Start}
    (h : plan.start? pages scopes = some start) :
    (plan.hasPageDirective = true ∧ ∃ page ∈ pages,
      start = ⟨[⟨page, page.path⟩], [page], some page⟩) ∨
        (plan.hasPageDirective = false ∧ start = ⟨[], scopes, none⟩) := by
  rw [start?] at h
  split at h
  · obtain ⟨page, hpage, rfl⟩ := Option.map_eq_some_iff.mp h
    exact Or.inl ⟨‹_›, page, mem_of_pageAmong? hpage, rfl⟩
  · exact Or.inr ⟨by simpa using ‹¬plan.hasPageDirective = true›, (Option.some.inj h).symm⟩

/-! ## Plans that pick otherwise -/

/-- Segment by segment a plan looks for the same as another one, but it may pick otherwise. -/
structure Reshapes (g : SegmentPlan → SegmentPlan) (plan plan' : QueryPlan) : Prop where
  /-- Each segment is the one in its place, changed. -/
  segments_eq : plan'.segments = plan.segments.map g
  /-- No symbol changes, -/
  symbol_eq : ∀ segment, (g segment).symbol = segment.symbol
  /-- nor a name. -/
  nameQuery_eq : ∀ segment, (g segment).nameQuery = segment.nameQuery

namespace Reshapes

variable {g : SegmentPlan → SegmentPlan} {plan' : QueryPlan}

theorem isEmpty_eq (h : Reshapes g plan plan') : plan'.isEmpty = plan.isEmpty := by
  rw [isEmpty, isEmpty, h.segments_eq]
  exact List.isEmpty_map

theorem hasPageDirective_eq (h : Reshapes g plan plan') :
    plan'.hasPageDirective = plan.hasPageDirective := by
  rw [hasPageDirective, hasPageDirective, h.segments_eq]
  cases plan.segments with
  | nil => rfl
  | cons segment rest => exact congrArg (· == .page) (h.symbol_eq segment)

theorem steps_eq (h : Reshapes g plan plan') : plan'.steps = plan.steps.map g := by
  rw [QueryPlan.steps, QueryPlan.steps, h.hasPageDirective_eq, h.segments_eq]
  split
  · exact List.map_tail.symm
  · rfl

private theorem pageAmong?_eq (h : Reshapes g plan plan') (pages : List Spot) :
    plan'.pageAmong? pages = plan.pageAmong? pages := by
  rw [pageAmong?, pageAmong?, h.segments_eq]
  cases plan.segments with
  | nil => rfl
  | cons segment rest => simp [h.nameQuery_eq segment]

theorem start?_eq (h : Reshapes g plan plan') (pages scopes : List Spot) :
    plan'.start? pages scopes = plan.start? pages scopes := by
  rw [start?, start?, h.hasPageDirective_eq, h.pageAmong?_eq]

end Reshapes

end QueryPlan

/-! ## Nodes of a tree, each once -/

section

variable {r : Spot} {spots : List Spot}

/-- Nodes of a tree may be left out before or after the others are made distinct. -/
theorem distinctSpots_filter (ht : r.IsTree) (hspots : ∀ s ∈ spots, r.Reaches s)
    (keep : Spot → Bool) :
    distinctSpots (spots.filter keep) = (distinctSpots spots).filter keep := by
  refine firstOccurrences_filter (fun a ha b hb hplace ↦ ?_) fun _ _ _ ↦ Iff.rfl
  rw [ht.eq_of_place (hspots a ha) (hspots b hb) hplace]

/-- Nodes that are found in parts of a tree that have nothing in common are made distinct part by
part. -/
theorem distinctSpots_append (ht : r.IsTree) {front back : List Spot}
    (hfront : ∀ a ∈ front, r.Reaches a) (hback : ∀ b ∈ back, r.Reaches b)
    (hdisjoint : ∀ a ∈ front, a ∉ back) :
    distinctSpots (front ++ back) = distinctSpots front ++ distinctSpots back := by
  refine firstOccurrences_append_of_disjoint fun a ha b hb hplace ↦ hdisjoint a ha ?_
  rwa [ht.eq_of_place (hfront a ha) (hback b hb) hplace]

theorem distinctSpots_eq_self (ht : r.IsTree) (hspots : ∀ s ∈ spots, r.Reaches s)
    (hnodup : spots.Nodup) : distinctSpots spots = spots := by
  refine firstOccurrences_eq_self ?_ (by simp)
  exact hnodup.map_on fun a ha b hb hplace ↦ ht.eq_of_place (hspots a ha) (hspots b hb) hplace

end

namespace Evaluation.Finder

variable {find : Finder} {m : QueryModifiers} {isFirst allowSelf childSearch : Bool}
  {segment : SegmentPlan} {segments rest : List SegmentPlan} {scopes pages : List Spot}
  {found : List Found} {plan : QueryPlan} {query : String}

/-! ## Segments -/

/-- The nodes that segments find one below the other if each of them keeps all its matches; the
first one may match the scopes themselves. -/
def nodes (find : Finder) (allowSelf : Bool) (scopes : List Spot) : List SegmentPlan → List Spot
  | [] => scopes
  | segment :: rest =>
    find.nodes false (distinctSpots (scopes.flatMap (find segment allowSelf))) rest

@[simp] theorem nodes_nil (find : Finder) (allowSelf : Bool) (segments : List SegmentPlan) :
    find.nodes allowSelf [] segments = [] := by
  induction segments generalizing allowSelf with
  | nil => rfl
  | cons segment rest ih => exact ih false

theorem map_spot_distinct_foundIn :
    (distinct (find.foundIn segment allowSelf scopes)).map Found.spot =
      distinctSpots (scopes.flatMap (find segment allowSelf)) := by
  rw [map_spot_distinct, map_spot_foundIn]

private theorem exists_segmentsAnswer_nodes (find : Finder) (childSearch : Bool)
    (harranged : QueryPlan.Arranged m isFirst segments)
    (hpicks : ∀ segment ∈ segments, segment.pick = none) (hfirst : m.firstOverall = false)
    (hfound : segments = [] → found.map Found.spot = scopes) :
    ∃ result, find.segmentsAnswer childSearch found scopes segments = .ok result ∧
      result.map Found.spot = find.nodes (isFirst && !childSearch) scopes segments := by
  induction segments generalizing isFirst scopes found with
  | nil => exact ⟨found, rfl, hfound rfl⟩
  | cons segment rest ih =>
    obtain ⟨hplace, -, hstop, hrest⟩ := harranged
    have hanswer : find.segmentAnswer segment (isFirst && !childSearch) scopes =
        .ok (distinct (find.foundIn segment (isFirst && !childSearch) scopes)) := by
      rw [segmentAnswer, hpicks segment List.mem_cons_self, hstop, hfirst]
      rfl
    generalize hkept : distinct (find.foundIn segment (isFirst && !childSearch) scopes) = kept
      at hanswer
    have hspots : kept.map Found.spot =
        distinctSpots (scopes.flatMap (find segment (isFirst && !childSearch))) := by
      rw [← hkept, map_spot_distinct_foundIn]
    obtain ⟨result, hresult, hnodes⟩ := ih hrest
      (fun segment hs ↦ hpicks segment (List.mem_cons_of_mem _ hs)) (fun _ ↦ rfl)
    rw [segmentsAnswer, hplace, hanswer, nodes, ← hspots]
    change ∃ result, (if kept.isEmpty then pure [] else _) = _ ∧ _
    rw [hresult]
    split
    · rename_i hempty
      obtain rfl := List.isEmpty_iff.mp hempty
      exact ⟨[], rfl, (nodes_nil find false rest).symm⟩
    · exact ⟨result, rfl, hnodes⟩

/-! ## Plans -/

theorem answer_eq (find : Finder) (pages scopes : List Spot) (plan : QueryPlan) :
    find.answer pages scopes plan =
      match plan.start? pages scopes with
      | none => pure ([], none)
      | some start =>
        (find.segmentsAnswer plan.childSearch start.found start.scopes plan.steps) >>= fun found ↦
          finish plan found >>= fun found ↦ pure (found, start.page) := by
  rw [answer, QueryPlan.start?, QueryPlan.steps]
  cases hdirective : plan.hasPageDirective with
  | false => rfl
  | true =>
    obtain ⟨directive, rest, hsegments⟩ : ∃ directive rest, plan.segments = directive :: rest := by
      refine List.exists_cons_of_ne_nil fun hnil ↦ ?_
      rw [QueryPlan.hasPageDirective, hnil] at hdirective
      cases hdirective
    rw [if_pos rfl, if_pos rfl, QueryPlan.pageAmong?, hsegments, List.head?_cons,
      Option.bind_some]
    dsimp only
    cases pages.find? fun page ↦ (NameMatcher.ofQuery directive.nameQuery).accepts page.name <;> rfl

/-- The nodes that a plan finds if it keeps all matches, and the page that it names. -/
def planNodes (find : Finder) (pages scopes : List Spot) (plan : QueryPlan) :
    List Spot × Option Spot :=
  if plan.hasPageDirective then
    match plan.pageAmong? pages with
    | none => ([], none)
    | some page => (find.nodes false [page] plan.steps, some page)
  else (find.nodes (!plan.childSearch) scopes plan.steps, none)

theorem planNodes_eq (find : Finder) (pages scopes : List Spot) (plan : QueryPlan) :
    find.planNodes pages scopes plan =
      match plan.start? pages scopes with
      | none => ([], none)
      | some start => (find.nodes (!plan.hasPageDirective && !plan.childSearch) start.scopes
          plan.steps, start.page) := by
  rw [planNodes, QueryPlan.start?]
  cases plan.hasPageDirective with
  | false => rfl
  | true => cases plan.pageAmong? pages <;> rfl

theorem exists_answer_of_arranged (find : Finder) (pages scopes : List Spot)
    (harranged : QueryPlan.Arranged m true plan.segments) (hfirst : m.firstOverall = false)
    (hfinal : plan.finalPick = none) (hpicks : ∀ segment ∈ plan.segments, segment.pick = none)
    (hne : plan.isEmpty = false) :
    ∃ found, find.answer pages scopes plan = .ok (found, (find.planNodes pages scopes plan).2) ∧
      found.map Found.spot = (find.planNodes pages scopes plan).1 := by
  rw [answer_eq, planNodes_eq]
  cases hstart : plan.start? pages scopes with
  | none => exact ⟨[], rfl, rfl⟩
  | some start =>
    have hfound : plan.steps = [] → start.found.map Found.spot = start.scopes := by
      intro hnil
      rcases QueryPlan.of_start? hstart with ⟨-, page, -, rfl⟩ | ⟨hdirective, -⟩
      · rfl
      · rcases QueryPlan.steps_eq_nil hnil with h | h
        · rw [h] at hdirective
          cases hdirective
        · rw [h] at hne
          cases hne
    obtain ⟨found, hanswer, hnodes⟩ := find.exists_segmentsAnswer_nodes plan.childSearch
      harranged.steps (fun segment h ↦ hpicks segment (QueryPlan.mem_segments_of_mem_steps h))
      hfirst hfound
    refine ⟨found, ?_, hnodes⟩
    dsimp only
    rw [hanswer]
    -- nothing is left out at the end
    change (finish plan found >>= fun found ↦ pure (found, start.page)) = _
    rw [finish, hfinal]
    rfl

private theorem exists_answer_planNodes (find : Finder) (pages scopes : List Spot)
    (hplan : parseQuery query = .ok plan) (hall : QueryPlan.KeepsAll query)
    (hne : plan.isEmpty = false) :
    ∃ found, find.answer pages scopes plan = .ok (found, (find.planNodes pages scopes plan).2) ∧
      found.map Found.spot = (find.planNodes pages scopes plan).1 := by
  obtain ⟨hfirst, hfinal, hpicks⟩ := QueryPlan.picks_nothing hplan hall
  exact find.exists_answer_of_arranged pages scopes (QueryPlan.arranged_of_parseQuery hplan) hfirst
    hfinal hpicks hne

end Evaluation.Finder

/-! ## Searches -/

section

variable {host : Host} {query : String} {plan : QueryPlan} {m : Monitor}

/-- The nodes that a plan finds on a host, and the page that it names. -/
def Host.planNodes (host : Host) (plan : QueryPlan) : List Spot × Option Spot :=
  (finder true host).planNodes host.document.pages (host.scopes plan.childSearch) plan

/-- A search for all matches that tells the answer of a host has its nodes, and names its page. -/
theorem exists_response_of_told {answer : Except SearchFault Response}
    (hplan : parseQuery query = .ok plan) (hall : QueryPlan.KeepsAll query)
    (hne : plan.isEmpty = false) (h : answer.map Response.told = host.answer true plan) :
    ∃ r, answer = .ok r ∧ r.nodes = (host.planNodes plan).1 ∧ r.page = (host.planNodes plan).2 := by
  obtain ⟨found, hfound, hnodes⟩ := (finder true host).exists_answer_planNodes host.document.pages
    (host.scopes plan.childSearch) hplan hall hne
  rw [Host.answer, hfound] at h
  rcases answer with fault | r
  · cases h
  · obtain ⟨hresults, hpage⟩ := Prod.mk.inj (Except.ok.inj h)
    exact ⟨r, rfl, (congrArg (List.map Found.spot) hresults).trans hnodes, hpage⟩

end

end SceneSearch
