import SceneSearch.Proofs.Scene.Queue
import SceneSearch.Proofs.Search.Outcome
import SceneSearch.Service.Tools

/-!
# Requests to search

A request to search is refused if it says nothing, or asks for a page or a node that the document
does not have; then no query is stored. Any other one is answered with what a run of its query on a
new host finds, cut off at the limit of the request. A store that fails makes no difference, since a
run takes no notice of it.

There is one request that gets no answer at all: a host has to show some page, and where a document
has none nobody has looked for it before the host is made. An outline of such a document is refused
instead.
-/

namespace SceneSearch

/-! ## What a request asks for -/

namespace SearchRequest

/-- The page that a request names. An empty text names none. -/
def named? (r : SearchRequest) : Option String := r.page.filter (!·.isEmpty)

/-- What is wrong with a request. -/
inductive IsWrong (r : SearchRequest) (d : Document) : Prop
  /-- Its query says nothing. -/
  | blank : (∀ c ∈ r.query.toList, isBlank c = true) → IsWrong r d
  /-- It names a page that the document does not have. -/
  | page (name : String) : r.named? = some name →
      (∀ p ∈ d.pages, p.name ≠ name ∧ p.id ≠ name) → IsWrong r d
  /-- It selects a node that the document does not have. -/
  | node (id : String) : id ∈ r.selection → d.get? id = none → IsWrong r d

/-- The page on which a request starts: the first one of the document, or the first one that has the
name or the id that the request gives. -/
def StartsOn (r : SearchRequest) (d : Document) (page : Spot) : Prop :=
  match r.named? with
  | none => d.pages.head? = some page
  | some name => d.pages.find? (fun p ↦ p.name = name ∨ p.id = name) = some page

theorem StartsOn.mem_pages {r : SearchRequest} {d : Document} {page : Spot}
    (h : r.StartsOn d page) : page ∈ d.pages := by
  rw [StartsOn] at h
  split at h
  · exact List.mem_of_head? h
  · exact List.mem_of_find?_eq_some h

/-- The report on a run of the query on a host. -/
def reportOn {σ : Type} (r : SearchRequest) (host : Host) (run : RunResult σ) : SearchReport where
  outcome := run.outcome
  scope := host.selectionLabel
  page := run.host.currentPage.name
  results := run.outcome.results.take r.wanted

end SearchRequest

namespace Document

variable {d : Document}

theorem pageNamed?_eq (d : Document) (name : String) :
    d.pageNamed? name = d.pages.find? fun p ↦ decide (p.name = name ∨ p.id = name) := by
  rw [pageNamed?]
  congr 1
  funext p
  rw [Bool.decide_or]
  rfl

theorem pageNamed?_eq_none_iff {name : String} :
    d.pageNamed? name = none ↔ ∀ p ∈ d.pages, p.name ≠ name ∧ p.id ≠ name := by
  simp [pageNamed?_eq]

/-- Either all ids have nodes, which are given in their order, or some id has none. -/
theorem getAll_spec (d : Document) (ids : List String) :
    match d.getAll ids with
    | .ok spots => ids.map d.get? = spots.map some
    | .error id => id ∈ ids ∧ d.get? id = none := by
  induction ids with
  | nil => rfl
  | cons id rest ih =>
    rw [getAll]
    cases hid : d.get? id with
    | none => exact ⟨List.mem_cons_self, hid⟩
    | some s =>
      cases hrest : d.getAll rest with
      | error missing =>
        rw [hrest] at ih
        exact ⟨List.mem_cons_of_mem id ih.1, ih.2⟩
      | ok spots =>
        rw [hrest] at ih
        exact List.cons_eq_cons.mpr ⟨hid, ih⟩

end Document

/-! ## Answers -/

section

variable {σ : Type} {d : Document} {r : SearchRequest} {store : Option (QueryStore σ)}

private theorem store_runQuery (engine : Engine) (host : Host) (query : String)
    (store : Option (QueryStore σ)) (m : Monitor) :
    (runQuery engine host query store m).store = store.map (·.given query) := by
  rcases hkeep : QueryStore.keep store query m with ⟨stored, noted⟩
  rcases hsearch : engine.search host query noted with ⟨answer, searched, found, after⟩
  rw [runQuery_eq engine host query store m hkeep hsearch]

private theorem get?_report (report : SearchReport) :
    (SearchAnswer.report report).toJson.get? "error" = none ∧
      (SearchAnswer.report report).toJson.get? "results" =
        some (.array (report.results.map (·.toJson "node_id"))) ∧
      (SearchAnswer.report report).toJson.get? "count" = some (.int report.results.length) ∧
      (SearchAnswer.report report).toJson.get? "total" =
        some (.int report.outcome.results.length) := ⟨rfl, rfl, rfl, rfl⟩

theorem isBlank_iff : allBlank r.query.toList = true ↔ ∀ c ∈ r.query.toList, isBlank c = true :=
  List.all_eq_true

private theorem searchTool_of_isWrong (h : r.IsWrong d) (store : Option (QueryStore σ)) :
    ∃ message, searchTool d r store = (.ok (.refused message), store) := by
  rw [searchTool]
  by_cases hblank : allBlank r.query.toList = true
  · rw [if_pos hblank]
    exact ⟨_, rfl⟩
  rw [if_neg hblank]
  cases hpage : d.requestedPage r.page with
  | error message => exact ⟨message, rfl⟩
  | ok page =>
    have hselection := d.getAll_spec r.selection
    cases hall : d.getAll r.selection with
    | error id => exact ⟨_, rfl⟩
    | ok selected =>
      -- nothing is wrong then
      rw [hall] at hselection
      cases h with
      | blank h => exact absurd (isBlank_iff.mpr h) hblank
      | page name hnamed hmissing =>
        rw [Document.requestedPage, ← SearchRequest.named?, hnamed] at hpage
        dsimp only at hpage
        rw [Document.pageNamed?_eq_none_iff.mpr hmissing] at hpage
        cases hpage
      | node id hmem hmissing =>
        have hnone : none ∈ selected.map some := hselection ▸ hmissing ▸ List.mem_map_of_mem hmem
        simp at hnone

/-- Any other request comes to the host that it is searched on, if there is one. -/
theorem searchTool_of_not_isWrong (h : ¬r.IsWrong d) (store : Option (QueryStore σ)) :
    ∃ page selected, r.selection.map d.get? = selected.map some ∧
      (∀ p, page.or d.pages.head? = some p ↔ r.StartsOn d p) ∧
      searchTool d r store =
        match Host.create d page selected with
        | .error fault => (.error fault, store)
        | .ok host =>
          let run := runQuery Engine.new host r.query store {}
          (.ok (.report (r.reportOn host run)), run.store) := by
  have hblank : ¬allBlank r.query.toList = true := fun hall ↦ h (.blank (isBlank_iff.mp hall))
  have hselection := d.getAll_spec r.selection
  rw [searchTool, if_neg hblank, Document.requestedPage, ← SearchRequest.named?]
  cases hall : d.getAll r.selection with
  | error id =>
    rw [hall] at hselection
    exact absurd (.node id hselection.1 hselection.2) h
  | ok selected =>
    rw [hall] at hselection
    simp only [SearchRequest.StartsOn]
    cases hnamed : r.named? with
    | none => exact ⟨none, selected, hselection, fun p ↦ Iff.rfl, rfl⟩
    | some name =>
      cases hfound : d.pageNamed? name with
      | none => exact absurd (.page name hnamed (Document.pageNamed?_eq_none_iff.mp hfound)) h
      | some page =>
        refine ⟨some page, selected, hselection, fun p ↦ ?_, ?_⟩
        · rw [Option.some_or, ← hfound, Document.pageNamed?_eq]
        · simp only [hfound]
          rfl

/-- **What a request to search comes to.** A wrong request is refused with an empty list of results,
and nothing is stored. Any other one on a document with pages is answered with the first results of
a run of its query on a new host, between one and five hundred of them as the request says, with the
number of all of them beside; the query is stored once. On a document without pages the host
fails. -/
theorem searchTool_answers_or_lacks_pages (d : Document) (r : SearchRequest)
    (store : Option (QueryStore σ)) :
    (r.IsWrong d ∧ ∃ message, searchTool d r store = (.ok (.refused message), store) ∧
      (SearchAnswer.refused message).toJson =
        .object [("error", .string message), ("results", .array []), ("count", .int 0)]) ∨
    (¬r.IsWrong d ∧ d.pages ≠ [] ∧ ∃ page selected report, r.StartsOn d page ∧
      r.selection.map d.get? = selected.map some ∧
      searchTool d r store = (.ok (.report report), store.map (·.given r.query)) ∧
      let host : Host := { document := d, currentPage := page, selection := selected }
      let results := (runQuery Engine.new host r.query store {}).outcome.results
      let shown := results.take (max 1 (min r.limit 500)).toNat
      let answer := (SearchAnswer.report report).toJson
      answer.get? "error" = none ∧
        answer.get? "results" = some (.array (shown.map (·.toJson "node_id"))) ∧
        answer.get? "count" = some (.int shown.length) ∧
        answer.get? "total" = some (.int results.length)) ∨
    (¬r.IsWrong d ∧ d.pages = [] ∧ searchTool d r store = (.error .noPages, store)) := by
  by_cases h : r.IsWrong d
  · obtain ⟨message, hrefused⟩ := searchTool_of_isWrong h store
    exact Or.inl ⟨h, message, hrefused, rfl⟩
  right
  obtain ⟨page, selected, hselection, hstart, hanswer⟩ := searchTool_of_not_isWrong h store
  rw [hanswer, Host.create]
  cases hshown : page.or d.pages.head? with
  | none =>
    have hpages : d.pages = [] := List.head?_eq_none_iff.mp (Option.or_eq_none_iff.mp hshown).2
    exact Or.inr ⟨h, hpages, rfl⟩
  | some p =>
    have hstarts := (hstart p).mp hshown
    have hpages : d.pages ≠ [] := List.ne_nil_of_mem hstarts.mem_pages
    let host : Host := { document := d, currentPage := p, selection := selected }
    have hstore := store_runQuery Engine.new host r.query store {}
    refine Or.inl ⟨h, hpages, p, selected,
      r.reportOn host (runQuery Engine.new host r.query store {}), hstarts, hselection, ?_, ?_⟩
    · dsimp only
      rw [← hstore]
    · dsimp only
      generalize runQuery Engine.new _ r.query store {} = run
      exact get?_report (r.reportOn host run)

/-- Nothing is wrong with a search of a document without pages, but it fails. -/
theorem searchTool_fails_without_pages :
    ∃ d, Document.ofExport (.object [("pages", .array [])]) = .ok d ∧
      ¬({ query := "x" } : SearchRequest).IsWrong d ∧
      searchTool d { query := "x" } (none : Option (QueryStore Unit)) =
        (.error .noPages, none) := by
  refine ⟨_, (Document.ofExport_eq_checked rfl).trans rfl, ?_, rfl⟩
  rintro (h | ⟨name, hnamed, -⟩ | ⟨id, hid, -⟩)
  · exact absurd (h 'x' (by decide)) (by decide)
  · cases hnamed
  · cases hid

end

end SceneSearch
