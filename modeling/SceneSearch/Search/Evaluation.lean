import SceneSearch.Query.Name
import SceneSearch.Search.Cache
import SceneSearch.Search.Host
import SceneSearch.Search.Visibility

/-!
# Evaluating plans

A plan is evaluated segment by segment. The first segment looks at and below the starting scopes,
or below the page that the query names; each later one looks below the matches of the one before.
A match passes the type of the segment, its name query and the visibility mode, and then perhaps a
pick by rank.

There are three ways to go below a scope: through its children, for a direct segment; through a
bulk lookup of all nodes of the kinds asked for, which is remembered for the next scope with the
same id; and node by node, leaving out hidden parts where the mode does. The bulk lookup serves
only segments of the default mode, and none that stops at the first match, for which going node by
node ends sooner.
-/

namespace SceneSearch

/-! ## Answers -/

/-- A match and its displayed path. -/
structure Found where
  /-- The node. -/
  spot : Spot
  /-- The path that is displayed for it. -/
  path : String

/-- What a search answers. Visits are counted by whoever runs it. -/
structure Response where
  /-- The matches, in order. -/
  results : List Found := []
  /-- The page that the query names. -/
  page : Option Spot := none
  /-- How many nodes were visited. -/
  visited : Nat := 0

/-- The matches without their paths. -/
def Response.nodes (r : Response) : List Spot := r.results.map Found.spot

namespace Evaluation

/-! ## Nodes at and below a scope -/

/-- What a node has to pass in a segment, its visibility apart. -/
def fits (segment : SegmentPlan) (matcher : NameMatcher) (s : Spot) : Bool :=
  segment.symbol.admits s.layer && matcher.accepts s.name

/-- Visits nodes in turn. Those that `keep` accepts are added in front of those in `kept`, the
latest first; with `first` the first of them is the last node that is visited. -/
def visitAmong (first : Bool) (keep : Spot → Bool) (kept : List Spot) :
    List Spot → Trace (List Spot)
  | [] => .done (.ok kept.reverse)
  | s :: rest =>
    .step .visit fun _ ↦
      let kept := if keep s then s :: kept else kept
      if first && keep s then .done (.ok kept.reverse) else visitAmong first keep kept rest

/-- The scope itself, where it matches. Pages and documents never match themselves. -/
def lookAt (first : Bool) (segment : SegmentPlan) (matcher : NameMatcher) (scope : Spot) :
    Trace (List Spot) :=
  let keep (s : Spot) : Bool := fits segment matcher s && s.isEligible segment.visibility s.parent?
  visitAmong first keep [] (if scope.kind.isRootLike then [] else [scope])

/-- The matches among the children of the scope. -/
def lookAtChildren (host : Host) (first : Bool) (segment : SegmentPlan) (matcher : NameMatcher)
    (scope : Spot) : Trace (List Spot) :=
  let keep (s : Spot) : Bool := fits segment matcher s && s.isEligible segment.visibility scope
  (host.childrenOf scope).andThen (visitAmong first keep [])

/-- The matches below the scope, node by node, without hidden parts where the mode leaves them
out. -/
def lookThrough (host : Host) (first : Bool) (segment : SegmentPlan) (matcher : NameMatcher)
    (scope : Spot) : Trace (List Spot) :=
  host.lookBelow first (fun s ↦ segment.visibility.prunesHidden && !s.visible)
    (fun s ↦ !(segment.visibility == .hiddenOnly && s.visible) && fits segment matcher s) scope

/-! ## Bulk lookups -/

/-- What a bulk lookup is remembered by: the id of the scope and the kinds. -/
abbrev PoolKey := String × List NodeKind

/-- Bulk lookups that are remembered during one search. -/
abbrev Pools := LruCache PoolKey (List Spot)

/-- How many of them. -/
def poolCapacity : Nat := 50

/-- How an evaluation goes about its work. None of it changes what is found. -/
structure Settings where
  /-- Whether bulk lookups are used. -/
  bulk : Bool := true
  /-- How many of them are remembered. -/
  pools : Pools := .empty poolCapacity

abbrev Search := StateT Pools Trace

/-- Goes through a trace. -/
def follow {α : Type} (t : Trace α) : Search α := fun pools ↦ t.andThen fun a ↦ pure (a, pools)

def emit (event : Event) : Search Unit := follow (.step event fun _ ↦ .done (.ok ()))

/-- A result that may fail. -/
def liftExcept {α : Type} (r : Except SearchFault α) : Search α := follow (.done r)

def check : Search Unit := emit .check

/-- The effectively visible nodes of some kinds below a scope, remembered or looked up. -/
def pool (host : Host) (scope : Spot) (kinds : List NodeKind) : Search (List Spot) := fun pools ↦
  match pools.get (scope.id, kinds) with
  | (some remembered, pools) => pure (remembered, pools)
  | (none, pools) =>
    -- if the host fails on the way nothing is remembered
    (host.findAll scope kinds).andThen fun all ↦
      let found := all.filter (·.isEffectivelyVisible scope)
      pure (found, pools.put (scope.id, kinds) found)

/-! ## Matches of one scope -/

/-- The kinds to look up in bulk for a segment, if it is looked up in bulk. -/
def bulkKinds? (bulk : Bool) (segment : SegmentPlan) : Option (List NodeKind) :=
  if bulk && segment.visibility.prunesHidden && !segment.stopAtFirst then segment.symbol.poolKinds?
  else none

/-- The matches of a segment below a scope; with `first` only the first of them, and nothing after
it is gone through. -/
def scanBelow (bulk : Bool) (host : Host) (first : Bool) (segment : SegmentPlan)
    (matcher : NameMatcher) (scope : Spot) : Search (List Spot) :=
  if segment.direct then follow (lookAtChildren host first segment matcher scope)
  else
    match bulkKinds? bulk segment with
    | some kinds => List.filter (fun s ↦ matcher.accepts s.name) <$> pool host scope kinds
    | none => follow (lookThrough host first segment matcher scope)

/-- The matches of a segment at or below a scope; with `first` only the first of them. -/
def scan (bulk : Bool) (host : Host) (first : Bool) (segment : SegmentPlan) (matcher : NameMatcher)
    (allowSelf : Bool) (scope : Spot) : Search (List Spot) := do
  let own ← if allowSelf then follow (lookAt first segment matcher scope) else pure []
  if first && !own.isEmpty then pure own
  else
    let below ← scanBelow bulk host first segment matcher scope
    pure (own ++ below)

/-! ## Matches of all scopes -/

/-- The first match of a segment; nothing after it is gone through. -/
def findFirst (host : Host) (segment : SegmentPlan) (matcher : NameMatcher) (allowSelf : Bool) :
    List Spot → Search (List Found)
  | [] => pure []
  | scope :: rest => do
    check
    match ← scan false host true segment matcher allowSelf scope with
    | s :: _ => pure [⟨s, s.pathFrom scope⟩]
    | [] => findFirst host segment matcher allowSelf rest

/-- The matches of each scope in turn, each scope with its own. -/
def scanAll (bulk : Bool) (host : Host) (segment : SegmentPlan) (matcher : NameMatcher)
    (allowSelf : Bool) (scopes : List Spot) : Search (List (Spot × List Spot)) :=
  scopes.mapM fun scope ↦ do
    check
    let matched ← scan bulk host false segment matcher allowSelf scope
    pure (scope, matched)

/-- Matches without those that an earlier one repeats. -/
def distinct (found : List Found) : List Found :=
  firstOccurrences (fun f : Found ↦ f.spot.place) [] found

/-- All matches, each with the path from the first scope that it was met in. -/
def matchAll (bulk : Bool) (host : Host) (segment : SegmentPlan) (matcher : NameMatcher)
    (allowSelf : Bool) (scopes : List Spot) : Search (List Found) := do
  let groups ← scanAll bulk host segment matcher allowSelf scopes
  pure (distinct (groups.flatMap fun g ↦ g.2.map fun s ↦ ⟨s, s.pathFrom g.1⟩))

/-- The item of a rank among nodes in reading order. -/
def choose (pick : RankPick) (spots : List Spot) (scope : Option Spot := none) :
    Except SearchFault (Option Spot) := do
  let sorted ← (sortVisually spots scope).mapError .rows
  (pick.choose sorted).mapError .outOfRange

/-- The match of a rank among those of all scopes together. -/
def pickOverall (bulk : Bool) (host : Host) (segment : SegmentPlan) (matcher : NameMatcher)
    (pick : RankPick) (allowSelf : Bool) (scopes : List Spot) : Search (List Found) := do
  let groups ← scanAll bulk host segment matcher allowSelf scopes
  let chosen ← liftExcept (choose pick (distinctSpots (groups.flatMap Prod.snd)))
  pure (chosen.toList.map fun s ↦ ⟨s, s.path⟩)

/-- The match of a rank in each scope; a scope that picks what an earlier one did adds nothing. -/
def pickPerScope (bulk : Bool) (host : Host) (segment : SegmentPlan) (matcher : NameMatcher)
    (pick : RankPick) (allowSelf : Bool) (scopes : List Spot) : Search (List Found) := do
  let picked ← scopes.mapM fun scope ↦ do
    check
    let matched ← scan bulk host false segment matcher allowSelf scope
    let chosen ← liftExcept (choose pick matched scope)
    pure (chosen.toList.map fun s ↦ (⟨s, s.pathFrom scope⟩ : Found))
  pure (distinct picked.flatten)

/-- The matches of a segment at or below some scopes. -/
def evaluateSegment (bulk : Bool) (host : Host) (segment : SegmentPlan) (allowSelf : Bool)
    (scopes : List Spot) : Search (List Found) :=
  let matcher := NameMatcher.ofQuery segment.nameQuery
  match segment.pick with
  | some pick =>
    match pick.scope with
    | .overall => pickOverall bulk host segment matcher pick allowSelf scopes
    | .perScope => pickPerScope bulk host segment matcher pick allowSelf scopes
  | none =>
    if segment.stopAtFirst then findFirst host segment matcher allowSelf scopes
    else matchAll bulk host segment matcher allowSelf scopes

/-! ## Plans -/

/-- Writes a record for those who look closely. -/
def debug (message : String) : Search Unit := emit (.note ⟨.debug, message⟩)

/-- Evaluates segments one below the other; without matches there is nothing to go on from. -/
def evaluateSegments (bulk : Bool) (host : Host) (childSearch : Bool) (found : List Found)
    (scopes : List Spot) : List SegmentPlan → Search (List Found)
  | [] => pure found
  | segment :: rest => do
    check
    let found ← evaluateSegment bulk host segment (segment.isFirst && !childSearch) scopes
    debug ("Segment " ++ segment.describe ++ " matched " ++ toString found.length ++ " nodes")
    if found.isEmpty then pure []
    else evaluateSegments bulk host childSearch found (found.map Found.spot) rest

/-- The first page that a name query accepts. Every page that is tried counts as visited. -/
def findPage (matcher : NameMatcher) : List Spot → Search (Option Spot)
  | [] => pure none
  | page :: rest => do
    emit .visit
    if matcher.accepts page.name then pure (some page) else findPage matcher rest

/-- The result of a rank; pages are no results to choose from. -/
def pickFinal (found : List Found) (pick : RankPick) : Except SearchFault (List Found) := do
  let selectable := found.filter (·.spot.kind ≠ .page)
  let chosen ← choose pick (selectable.map Found.spot)
  pure (selectable.filter fun f ↦ chosen.any f.spot.same)

/-- The result of the rank that a plan asks for at its end, if there is one. -/
def finish (plan : QueryPlan) (found : List Found) : Except SearchFault (List Found) :=
  match plan.finalPick with
  | some pick => if found.isEmpty then pure [] else pickFinal found pick
  | none => pure found

/-- Evaluates the segments of a plan below the page that it names, or in the starting scopes. -/
def evaluatePlan (bulk : Bool) (host : Host) (plan : QueryPlan) :
    Search (List Found × Option Spot) := do
  match plan.hasPageDirective, plan.segments with
  | true, directive :: rest =>
    match ← findPage (.ofQuery directive.nameQuery) host.document.pages with
    | none => pure ([], none)
    | some page =>
      let found ←
        evaluateSegments bulk host plan.childSearch [⟨page, page.path⟩] [page] rest
      let found ← liftExcept (finish plan found)
      pure (found, some page)
  | _, segments =>
    let found ←
      evaluateSegments bulk host plan.childSearch [] (host.scopes plan.childSearch) segments
    let found ← liftExcept (finish plan found)
    pure (found, none)

end Evaluation

/-- The trace of a plan on a host. -/
def QueryPlan.trace (plan : QueryPlan) (host : Host) (settings : Evaluation.Settings := {}) :
    Trace Response :=
  (Evaluation.evaluatePlan settings.bulk host plan settings.pools).andThen fun r ↦
    pure { results := r.1.1, page := r.1.2 }

end SceneSearch
