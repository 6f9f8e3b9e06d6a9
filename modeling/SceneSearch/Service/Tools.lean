import SceneSearch.Json.Value
import SceneSearch.Scene.Outline
import SceneSearch.Search.Outcome

/-!
# Tools

The tools that a document is served with: searching it, showing a part of it as an outline, and
listing its pages. A request that cannot be met is answered with what is wrong with it. Each search
has a host of its own, so that no request depends on another one.
-/

namespace SceneSearch

/-! ## Searching -/

structure SearchRequest where
  /-- The query. -/
  query : String
  /-- The page to start on, by name or id; the first one, if it is empty or missing. -/
  page : Option String := none
  /-- The ids of the nodes to search in, as if they were selected. -/
  selection : List String := []
  /-- How many results are wanted. -/
  limit : Int := 50

structure SearchReport where
  /-- How the search ended. -/
  outcome : Outcome
  /-- Where it looked. -/
  scope : String
  /-- The page that is shown after it. -/
  page : String
  /-- The results that were wanted. -/
  results : List Found

/-- What a search request is answered with. -/
inductive SearchAnswer where
  /-- What is wrong with the request. -/
  | refused (message : String)
  /-- What was found. -/
  | report (r : SearchReport)

/-- The number of results for a limit: at least one, at most five hundred. -/
def SearchRequest.wanted (r : SearchRequest) : Nat := (max 1 (min r.limit 500)).toNat

/-- The page with a name or an id. -/
def Document.pageNamed? (d : Document) (s : String) : Option Spot :=
  d.pages.find? fun p ↦ p.name == s || p.id == s

/-- The nodes with some ids, or the first id that no node has. -/
def Document.getAll (d : Document) : List String → Except String (List Spot)
  | [] => .ok []
  | id :: rest =>
    match d.get? id with
    | none => .error id
    | some s => (d.getAll rest).map (s :: ·)

def pageNotFound (page : String) : String := "Page '" ++ page ++ "' not found."

def nodeNotFound (id : String) : String := "Node '" ++ id ++ "' not found."

/-- The page that a request names. Nothing is named by an empty text. -/
def Document.requestedPage (d : Document) (page : Option String) :
    Except String (Option Spot) :=
  match page.filter (!·.isEmpty) with
  | none => .ok none
  | some name =>
    match d.pageNamed? name with
    | some page => .ok (some page)
    | none => .error (pageNotFound name)

/-- Answers a request to search. Only a document without pages cannot be searched at all. -/
def searchTool {σ : Type} (document : Document) (request : SearchRequest)
    (store : Option (QueryStore σ)) :
    Except HostFault SearchAnswer × Option (QueryStore σ) :=
  if allBlank request.query.toList then (.ok (.refused "No search query provided."), store)
  else
    match document.requestedPage request.page with
    | .error message => (.ok (.refused message), store)
    | .ok page =>
      match document.getAll request.selection with
      | .error id => (.ok (.refused (nodeNotFound id)), store)
      | .ok selection =>
        match Host.create document page selection with
        | .error fault => (.error fault, store)
        | .ok host =>
          let r := runQuery Engine.new host request.query store {}
          (.ok (.report
            { outcome := r.outcome, scope := host.selectionLabel, page := r.host.currentPage.name,
              results := r.outcome.results.take request.wanted }), r.store)

/-! ## Outlines and pages -/

/-- What a request for an outline is answered with. -/
inductive OutlineAnswer where
  /-- What is wrong with the request. -/
  | refused (message : String)
  /-- A node and its outline. -/
  | outline (s : Spot) (content : String)

/-- Answers a request for the outline of a node, or of the first page. -/
def outlineTool (document : Document) (nodeId : Option String) (maxDepth : Option Int) :
    OutlineAnswer :=
  match nodeId.filter (!·.isEmpty) with
  | some id =>
    match document.get? id with
    | some s => .outline s (s.outline maxDepth)
    | none => .refused (nodeNotFound id)
  | none =>
    match document.pages with
    | s :: _ => .outline s (s.outline maxDepth)
    | [] => .refused "Document has no pages."

/-! ## Answers as JSON -/

/-- A result as it is listed; `idKey` is the key of the id. -/
def Found.toJson (f : Found) (idKey : String) : Json :=
  .object [(idKey, .string f.spot.id), ("type", .string f.spot.kind.name),
    ("name", .string f.spot.name), ("path", .string f.path)]

def SearchAnswer.toJson : SearchAnswer → Json
  | refused message =>
    .object [("error", .string message), ("results", .array []), ("count", .int 0)]
  | report r =>
    .object [("status", .string r.outcome.status.name), ("message", .string r.outcome.message),
      ("scope", .string r.scope), ("page", .string r.page),
      ("results", .array (r.results.map (·.toJson "node_id"))),
      ("count", .int r.results.length), ("total", .int r.outcome.results.length)]

def OutlineAnswer.toJson : OutlineAnswer → Json
  | refused message => .object [("error", .string message)]
  | outline s content =>
    .object [("node_id", .string s.id), ("name", .string s.name), ("content", .string content)]

/-- The pages of a document, with the number of children of each. -/
def pagesTool (document : Document) : Json :=
  let page (p : Spot) : Json :=
    .object [("page_id", .string p.id), ("name", .string p.name), ("label", .string p.label),
      ("child_count", .int p.children.length)]
  .object [("pages", .array (document.pages.map page)), ("count", .int document.pages.length)]

/-! ## Serving -/

def noDocumentToServe : String := "Set LAYER_QUERY_DOCUMENT to the scene export to serve"

end SceneSearch
