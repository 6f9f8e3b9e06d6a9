import SceneSearch.Search.Evaluation

/-!
# Engines

An engine answers queries on a host. Answers to searches of visible layers are remembered by page,
query and selection, so whoever changes the document has to clear them. A remembered answer is
given without visiting any node. A search that fails leaves what is remembered as it was.
-/

namespace SceneSearch

/-! ## State -/

/-- What answers are remembered by: the id of the page, the query without blanks around it, and the
ids of the selection. -/
abbrev ResponseKey := String × String × List String

structure Engine where
  /-- The answers that are remembered. -/
  responses : LruCache ResponseKey Response
  /-- No key is stored without an answer. -/
  answered : ∀ entry ∈ responses.entries, entry.2.isSome = true
  /-- How plans are evaluated. -/
  settings : Evaluation.Settings := {}

def responseCapacity : Nat := 100

namespace Engine

/-- An engine that remembers nothing yet. -/
def ofEmpty (responses : LruCache ResponseKey Response) (h : responses.entries = []) : Engine where
  responses
  answered := by simp [h]

def new : Engine := ofEmpty (.empty responseCapacity) rfl

/-- A new engine that remembers a given number of answers. -/
def create (capacity : Int) : Except CapacityFault Engine :=
  match h : LruCache.create capacity with
  | .error fault => .error fault
  | .ok responses => .ok (ofEmpty responses (LruCache.entries_of_create h))

def clearCaches (e : Engine) : Engine where
  responses := e.responses.clear
  answered := by simp [LruCache.clear]
  settings := e.settings

/-- The engine after the answer to a key was looked up. -/
def lookUp (e : Engine) (key : ResponseKey) : Option Response × Engine :=
  ((e.responses.get key).1,
    { responses := (e.responses.get key).2,
      answered := fun entry h ↦ e.answered entry (LruCache.mem_of_mem_get h),
      settings := e.settings })

def remember (e : Engine) (key : ResponseKey) (r : Response) : Engine where
  responses := e.responses.put key (some r)
  answered entry h := by
    rcases LruCache.mem_of_mem_put h with rfl | h
    · rfl
    · exact e.answered entry h
  settings := e.settings

def mapResponses (e : Engine) (f : Response → Response) : Engine where
  responses := e.responses.mapValues f
  answered entry h := by
    obtain ⟨stored, hstored, rfl⟩ := LruCache.mem_mapValues.mp h
    rw [Option.isSome_map]
    exact e.answered stored hstored
  settings := e.settings

/-- What the answer to a query is remembered by. -/
def keyOf (host : Host) (query : String) : ResponseKey :=
  (host.currentPage.id, String.ofList (trim query.toList), host.selection.map Spot.id)

/-! ## Searching -/

/-- Evaluates a plan that is not remembered. Searches that include hidden layers are shown
everything. The answer tells how many nodes the watch saw. -/
def evaluate (e : Engine) (host : Host) (plan : QueryPlan) (m : Monitor) :
    Except SearchFault Response × Host × Monitor :=
  let m := m.note .debug ("Query plan: " ++ plan.describe)
  match host.exposing plan.modifiers.includesHidden fun host ↦
    (m.run (plan.trace host e.settings), host) with
  | ((.error fault, m), host) => (.error fault, host, m)
  | ((.ok r, m), host) =>
    let visited := m.watch.visited
    (.ok { r with visited }, host, m.note .debug
      (toString r.results.length ++ " results, " ++ toString visited ++ " nodes visited"))

/-- Answers a plan that is not empty. -/
def answer (e : Engine) (host : Host) (query : String) (plan : QueryPlan) (m : Monitor) :
    Except SearchFault Response × Engine × Host × Monitor :=
  if plan.modifiers.includesHidden then
    let (outcome, host, m) := e.evaluate host plan m
    (outcome, e, host, m)
  else
    let key := keyOf host query
    match e.lookUp key with
    | (some r, e) =>
      (.ok { r with visited := 0 }, e, host,
        m.note .debug ("Result cache hit for " ++ quoted query))
    | (none, e) =>
      match e.evaluate host plan m with
      | (.error fault, host, m) => (.error fault, e, host, m)
      | (.ok r, host, m) => (.ok r, e.remember key r, host, m)

/-- The monitor at the start of a search: nothing is visited yet, and the cadence is that of the
plan. -/
def begin (plan : QueryPlan) (m : Monitor) : Monitor :=
  { m with watch := { m.watch with
      yieldEvery := yieldIntervalFor plan.modifiers.includesHidden, visited := 0 } }

/-- Answers a query. An empty plan is answered at once, even if the search is cancelled. -/
def search (e : Engine) (host : Host) (query : String) (m : Monitor) :
    Except SearchFault Response × Engine × Host × Monitor :=
  match parseQuery query with
  | .error cause => (.error (.indexTooLong cause), e, host, m)
  | .ok plan =>
    if plan.isEmpty then (.ok {}, e, host, m.note .debug ("Empty query " ++ quoted query))
    else
      let m := begin plan m
      -- a search that was cancelled before is given no remembered answer either
      match m.check with
      | .error fault => (.error fault, e, host, m)
      | .ok () => e.answer host query plan m

/-! ## Small laws -/

@[simp] theorem responses_clearCaches (e : Engine) : e.clearCaches.responses.entries = [] := rfl

theorem create_responseCapacity : create responseCapacity = .ok new := rfl

end Engine

end SceneSearch
