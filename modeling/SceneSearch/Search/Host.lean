import SceneSearch.Scene.Document
import SceneSearch.Search.Scopes
import SceneSearch.Search.Trace

/-!
# Hosts

The host is the program that shows a document: it knows the current page, the selection and what
the viewport was last moved to. Children are asked for through it, since it hides the invisible
children of instances as long as it is told to.
-/

namespace SceneSearch

/-! ## State -/

/-- A document as it is shown. -/
structure Host where
  /-- The document. -/
  document : Document
  /-- The page that is shown. -/
  currentPage : Spot
  /-- The selected nodes, in the order of selection. -/
  selection : List Spot := []
  /-- The nodes that the viewport was last moved to. -/
  focused : List Spot := []
  /-- Whether invisible children of instances are hidden. -/
  skipsInstanceChildren : Bool := true

/-- Why a host refuses. -/
inductive HostFault where
  /-- There is no page to show. -/
  | noPages
  /-- A node that is no page cannot be shown as one. -/
  | notAPage (id : String)
deriving DecidableEq, Repr

def HostFault.message : HostFault → String
  | noPages => "Document has no pages"
  | notAPage id => "Not a page: " ++ quoted id

namespace Host

/-- A host of a document, which shows the given page or the first one. -/
def create (document : Document) (page : Option Spot := none) (selection : List Spot := []) :
    Except HostFault Host :=
  match page.or document.pages.head? with
  | some currentPage => .ok { document, currentPage, selection }
  | none => .error .noPages

def setCurrentPage (h : Host) (page : Spot) : Except HostFault Host :=
  if page.kind = .page then .ok { h with currentPage := page }
  else .error (.notAPage page.id)

def select (h : Host) (nodes : List Spot) : Host := { h with selection := nodes }

def focus (h : Host) (nodes : List Spot) : Host := { h with focused := nodes }

/-- The host while a search runs that has to be shown everything, or one that has not. -/
def exposed (h : Host) (everything : Bool) : Host :=
  if everything then { h with skipsInstanceChildren := false } else h

/-- Does something to a host that is shown everything, if that is asked for, and sets the flag of
the host back afterwards, however it ended. -/
def exposing {α : Type} (h : Host) (everything : Bool) (act : Host → α × Host) : α × Host :=
  let (a, after) := act (h.exposed everything)
  (a, { after with skipsInstanceChildren := h.skipsInstanceChildren })

/-! ## Looking below a node -/

/-- Which children are shown: all of them, or all but the invisible ones of instances. -/
def exposure (hidesInstanceChildren : Bool) : Exposure := fun parent child ↦
  !(hidesInstanceChildren && parent.kind == .instanceLayer) || child.visible

/-- The children of a node as they are shown. -/
def childrenOf (h : Host) (s : Spot) : Trace (List Spot) :=
  .step (.request h.skipsInstanceChildren) fun _ ↦
    .done (.ok (s.shownChildren (exposure h.skipsInstanceChildren)))

/-- Goes on with a walk: visits the first of what waits and asks for its children, unless `prune`
names it. The nodes that `keep` accepts are added in front of those in `kept`, the latest first;
with `first` the walk ends at one of them, before its children are asked for. -/
def lookAmong (hides first : Bool) (prune keep : Spot → Bool) :
    Nat → List Spot → List Spot → Trace (List Spot)
  | 0, kept, _ => .done (.ok kept.reverse)
  | _ + 1, kept, [] => .done (.ok kept.reverse)
  | steps + 1, kept, s :: waiting =>
    if prune s then lookAmong hides first prune keep steps kept waiting
    else
      .step .visit fun _ ↦
        let kept := if keep s then s :: kept else kept
        if first && keep s then .done (.ok kept.reverse)
        else
          .step (.request hides) fun _ ↦
            lookAmong hides first prune keep steps kept
              (s.shownChildren (exposure hides) ++ waiting)

/-- The nodes below a node that `keep` accepts, as far as they are shown, without what `prune`
names and what is below that; with `first` only the first of them. -/
def lookBelow (h : Host) (first : Bool) (prune keep : Spot → Bool) (s : Spot) :
    Trace (List Spot) :=
  (h.childrenOf s).andThen (lookAmong h.skipsInstanceChildren first prune keep s.steps [])

/-- The nodes of some kinds below a node, as far as they are shown. Each node that is gone through
counts as visited, whatever its kind. -/
def findAll (h : Host) (s : Spot) (kinds : List NodeKind) : Trace (List Spot) :=
  h.lookBelow false (fun _ ↦ false) (fun a ↦ kinds.contains a.kind) s

/-- What is left of a list for somebody who asks for the first item only, or for all of them. -/
def asked {α : Type} (first : Bool) (items : List α) : List α :=
  if first then items.take 1 else items

theorem result_lookAmong (hides first : Bool) (prune keep : Spot → Bool) (steps : Nat)
    (kept waiting : List Spot) :
    (lookAmong hides first prune keep steps kept waiting).result =
      .ok (kept.reverse ++ asked first ((walk (Spot.shownChildren (exposure hides))
        (fun a ↦ if prune a then none else some [a]) steps waiting).filter keep)) := by
  induction steps generalizing kept waiting with
  | zero => simp [lookAmong, walk, Trace.result, asked]
  | succ steps ih =>
    cases waiting with
    | nil => simp [lookAmong, walk, Trace.result, asked]
    | cons s waiting =>
      by_cases hp : prune s
      · simp [lookAmong, walk, hp, ih]
      · by_cases hk : keep s <;> cases first <;>
          simp [lookAmong, walk, hp, hk, ih, Trace.result, asked]

/-- A walk keeps the descendants that are accepted, in document order; if it ends at the first of
them, it keeps that one. -/
theorem result_lookBelow (h : Host) (first : Bool) (prune keep : Spot → Bool) (s : Spot) :
    (h.lookBelow first prune keep s).result =
      .ok (asked first
        ((s.descendants (exposure h.skipsInstanceChildren) prune).filter keep)) := by
  simp [lookBelow, childrenOf, Trace.result_andThen, Trace.result, result_lookAmong,
    Spot.descendants, Spot.gatherBelow]

/-! ## Scopes -/

/-- The containers that the selection lives in. -/
def anchors (h : Host) : List Spot := selectionAnchors h.currentPage h.selection

/-- The scopes of the first segment of a query. -/
def scopes (h : Host) (childSearch : Bool) : List Spot :=
  initialScopes h.currentPage h.selection childSearch

/-- Tells where the next search looks, such as `Inside: @Card, #Home`. -/
def selectionLabel (h : Host) : String :=
  "Inside: " ++ ", ".intercalate (h.anchors.map Spot.label)

end Host

end SceneSearch
