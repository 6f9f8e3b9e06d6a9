import SceneSearch.Search.Engine

/-!
# Running a query

Running a query searches for it and applies what was found to the host: the page is shown, the
layers are selected and moved into view. Every run ends in one of five ways. The first change to the
host is the last step that may fail, so a run that fails changes nothing. The query is stored before
the search; a store that fails is reported and otherwise ignored.
-/

namespace SceneSearch

/-! ## Outcomes -/

inductive OutcomeStatus where
  /-- Layers were found and selected. -/
  | selected
  /-- Nothing but a page was found. -/
  | pageOnly
  /-- Nothing was found. -/
  | noMatch
  /-- The search was cancelled. -/
  | cancelled
  /-- The search failed. -/
  | error
deriving DecidableEq, Repr

def OutcomeStatus.name : OutcomeStatus → String
  | selected => "selected"
  | pageOnly => "page_only"
  | noMatch => "no_match"
  | cancelled => "cancelled"
  | error => "error"

structure Outcome where
  /-- The status. -/
  status : OutcomeStatus
  /-- A line for the user. -/
  message : String
  /-- The layers that were selected. -/
  results : List Found := []
  /-- The page that is shown now. -/
  page : Option Spot := none

/-- The number of selected layers. -/
def Outcome.count (o : Outcome) : Nat := if o.status = .selected then o.results.length else 0

/-! ## Stores -/

/-- Something that keeps queries, and may fail to. -/
structure QueryStore (σ : Type) where
  /-- What was kept so far. -/
  state : σ
  /-- Keeps one more, or fails with words of its own. -/
  save : σ → String → Except String σ

/-- Keeps a query if there is a store; a failure is reported. -/
def QueryStore.keep {σ : Type} (store : Option (QueryStore σ)) (query : String) (m : Monitor) :
    Option (QueryStore σ) × Monitor :=
  match store with
  | none => (none, m)
  | some s =>
    match s.save s.state query with
    | .ok state => (some { s with state }, m)
    | .error message => (some s, m.note .warning ("Could not store last query: " ++ message))

/-! ## Applying an answer -/

/-- The page that an answer leads to: the one that the query names, or the first one among the
results. -/
def Response.target (r : Response) : Option Spot :=
  r.page.or ((r.results.find? (·.spot.kind = .page)).map Found.spot)

/-- The results that can be selected. -/
def Response.selectable (r : Response) : List Found := r.results.filter (·.spot.kind ≠ .page)

def layersWord (count : Nat) : String := if count = 1 then "layer" else "layers"

/-- The host that shows a page, if there is one to show. -/
def Host.showing (host : Host) : Option Spot → Except HostFault Host
  | none => .ok host
  | some page => host.setCurrentPage page

/-- Applies an answer to the host that shows its page already. -/
def Response.apply (r : Response) (host : Host) (query : String) (m : Monitor) :
    Outcome × Host × Monitor :=
  let page := r.target
  let nodes := r.selectable.map Found.spot
  if !nodes.isEmpty then
    let message := (if page.isSome then "Found page and selected " else "Found and selected ") ++
      toString nodes.length ++ " " ++ layersWord nodes.length
    (⟨.selected, message, r.selectable, page⟩, (host.select nodes).focus nodes,
      m.note .info message)
  else
    match page with
    | some page =>
      (⟨.pageOnly, "Found page", [], some page⟩, host, m.note .info ("Found page " ++ page.name))
    | none =>
      (⟨.noMatch, "No matching layers", [], none⟩, host,
        m.note .info ("No layers match " ++ quoted query))

/-! ## Failing -/

def Outcome.ofCancel (query : String) (m : Monitor) : Outcome × Monitor :=
  (⟨.cancelled, "Search cancelled", [], none⟩,
    m.note .info ("Search cancelled: " ++ quoted query))

/-- The end of a run that fails with some words. -/
def Outcome.ofFailure (message query : String) (m : Monitor) : Outcome × Monitor :=
  (⟨.error, "Error: " ++ message, [], none⟩, m.note .error ("Search failed for " ++ quoted query))

/-- The end of a run whose search fails. -/
def Outcome.ofFault (fault : SearchFault) (query : String) (m : Monitor) : Outcome × Monitor :=
  match fault with
  | .cancelled => ofCancel query m
  | fault => ofFailure fault.message query m

/-! ## Runs -/

/-- Everything that a run leaves behind. -/
structure RunResult (σ : Type) where
  /-- How it ended. -/
  outcome : Outcome
  /-- The host after it. -/
  host : Host
  /-- The engine after it, which remembers nothing. -/
  engine : Engine
  /-- The store after it. -/
  store : Option (QueryStore σ)
  /-- What was seen of it. -/
  monitor : Monitor

/-- How an answer, or the failure to get one, ends a run. A search that was cancelled too late to
notice is cancelled all the same. -/
def finishRun (answer : Except SearchFault Response) (host : Host) (query : String) (m : Monitor) :
    Outcome × Host × Monitor :=
  let unchanged (ending : Outcome × Monitor) : Outcome × Host × Monitor :=
    (ending.1, host, ending.2)
  match answer with
  | .error fault => unchanged (Outcome.ofFault fault query m)
  | .ok r =>
    if m.watch.cancelled then unchanged (Outcome.ofCancel query m)
    else
      match host.showing r.target with
      | .error fault => unchanged (Outcome.ofFailure fault.message query m)
      | .ok host => r.apply host query m

def runQuery {σ : Type} (engine : Engine) (host : Host) (query : String)
    (store : Option (QueryStore σ)) (m : Monitor) : RunResult σ :=
  let (store, m) := QueryStore.keep store query m
  let (answer, engine, host, m) := engine.search host query m
  let (outcome, host, monitor) := finishRun answer host query m
  { outcome, host, engine := engine.clearCaches, store, monitor }

end SceneSearch
