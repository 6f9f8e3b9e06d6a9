import SceneSearch.Scene.Edit
import SceneSearch.Search.Outcome

/-!
# Sessions

A session is one host and one engine that works on it. The user selects and searches, and the
document may be edited in between. An edit clears no cache by itself: until the caches are cleared,
remembered answers give the nodes that were found, whatever has become of them.
-/

namespace SceneSearch

structure Session where
  /-- The host. -/
  host : Host
  /-- The engine. -/
  engine : Engine

namespace Session

/-! ## Searching -/

def search (s : Session) (query : String) (m : Monitor) :
    Except SearchFault Response × Session × Monitor :=
  let (answer, engine, host, m) := s.engine.search s.host query m
  (answer, { host, engine }, m)

/-- Runs a query with the engine of the session, or with a new one. -/
def run {σ : Type} (s : Session) (query : String) (store : Option (QueryStore σ)) (m : Monitor)
    (fresh : Bool := false) : RunResult σ × Session :=
  let r := runQuery (if fresh then Engine.new else s.engine) s.host query store m
  (r, { host := r.host, engine := if fresh then s.engine else r.engine })

def clearCaches (s : Session) : Session := { s with engine := s.engine.clearCaches }

/-! ## Editing -/

/-- A result after an edit; its path is the one that was displayed. -/
def followFound (scene : Scene) (f : Found) : Found := { f with spot := f.spot.within scene }

/-- An answer after an edit. -/
def followResponse (scene : Scene) (r : Response) : Response :=
  { r with results := r.results.map (followFound scene), page := r.page.map (Spot.within scene) }

/-- The host with its document in another state; it goes on to show the nodes that it did. -/
def editHost (scene : Scene) (h : Host) : Host :=
  { h with
    document := { h.document with scene }, currentPage := h.currentPage.within scene,
    selection := h.selection.map (Spot.within scene),
    focused := h.focused.map (Spot.within scene) }

def edit (s : Session) (scene : Scene) : Session :=
  { host := editHost scene s.host,
    engine := s.engine.mapResponses (followResponse scene) }

/-- The session with the index of ids built anew. -/
def reindex (s : Session) : Session :=
  { s with host := { s.host with document := s.host.document.reindex } }

end Session

end SceneSearch
