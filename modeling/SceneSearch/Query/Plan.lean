import SceneSearch.Query.Modifier
import SceneSearch.Query.Piece

/-!
# Query plans

A query such as `#Page/$Section/@Frame//!Instance "Exact literal" --2e --h` is resolved into a plan:
one entry for each segment, with everything that its evaluation needs. Any text makes a plan, a bad
one if need be; the only refusal is an index with too many digits.

Flags hold for the whole query wherever they stand. An index inside a piece that is not the last
one picks among the matches of that piece; at the end of the query it picks among the results.
-/

namespace SceneSearch

/-! ## Picks -/

/-- Over which matches an index counts. -/
inductive PickScope where
  /-- All matches of a segment together. -/
  | overall
  /-- The matches below each scope. -/
  | perScope
deriving DecidableEq, Repr, Inhabited

def PickScope.name : PickScope → String
  | overall => "global"
  | perScope => "per_scope"

def PickScope.ofName? (s : String) : Option PickScope :=
  [overall, perScope].find? (·.name == s)

/-- A choice of one node by its rank, counted from one; zero is the last. -/
structure RankPick where
  /-- What the rank counts over. -/
  scope : PickScope
  /-- The rank. -/
  index : Int
deriving DecidableEq, Repr

namespace RankPick

/-- Why a negative rank is refused. -/
inductive OutOfRange where
  /-- The rank is below the first of the list. -/
  | belowFirst
  /-- The rank is below that of any list. -/
  | belowAny
deriving DecidableEq, Repr

def OutOfRange.message : OutOfRange → String
  | belowFirst => "list index out of range"
  | belowAny => "cannot fit 'int' into an index-sized integer"

/-- The least rank at which a list of any length could have an item: positions have 64 bits, and
that of a rank lies one below it. -/
def leastRank : Int := -9223372036854775807

def refusal (pick : RankPick) : OutOfRange :=
  if pick.index < leastRank then .belowAny else .belowFirst

/-- The item of a rank, or nothing if there are fewer items. A negative rank counts from the end,
starting behind the last item but one, and has to be in range. -/
def choose {α : Type} (pick : RankPick) (items : List α) : Except OutOfRange (Option α) :=
  match items.getLast? with
  | none => .ok none
  | some last =>
    if pick.index = 0 then .ok (some last)
    else if (items.length : Int) < pick.index then .ok none
    else if 0 < pick.index then .ok items[(pick.index - 1).toNat]?
    else
      let fromStart := (items.length : Int) + pick.index - 1
      match if fromStart < 0 then none else items[fromStart.toNat]? with
      | some item => .ok (some item)
      | none => .error pick.refusal

end RankPick

/-! ## Visibility -/

/-- How a segment treats hidden nodes. -/
inductive VisibilityMode where
  /-- Only what is visible together with everything on the way down to it. -/
  | default
  /-- Everything. -/
  | all
  /-- Only nodes whose own flag is off. -/
  | hiddenOnly
deriving DecidableEq, Repr, Inhabited

namespace VisibilityMode

def name : VisibilityMode → String
  | default => "default"
  | all => "all"
  | hiddenOnly => "hidden_only"

def ofName? (s : String) : Option VisibilityMode :=
  [default, all, hiddenOnly].find? (·.name == s)

/-- The mode of a segment: the last one is restricted to hidden layers, those on the way there let
everything through. -/
def resolve (hiddenOnly allLayers isFinal : Bool) : VisibilityMode :=
  if hiddenOnly && isFinal then .hiddenOnly
  else if hiddenOnly || allLayers then .all
  else .default

/-- Whether a walk leaves out hidden nodes with all that is below them. -/
def prunesHidden (m : VisibilityMode) : Bool := m == .default

end VisibilityMode

/-! ## Plans -/

/-- What the modifiers of a query say about the query as a whole. -/
structure QueryModifiers where
  /-- `--f` was given. -/
  firstOverall : Bool := false
  /-- `--fe` was given. -/
  firstEach : Bool := false
  /-- `--h` was given. -/
  hiddenOnly : Bool := false
  /-- `--a` was given. -/
  allLayers : Bool := false
  /-- The last `--N` of the last piece. -/
  index : Option Nat := none
  /-- The last `--Ne` of the last piece. -/
  indexEach : Option Nat := none
deriving DecidableEq, Repr

/-- Whether hidden layers take part in the search. -/
def QueryModifiers.includesHidden (m : QueryModifiers) : Bool := m.hiddenOnly || m.allLayers

/-- One segment of a plan. -/
structure SegmentPlan where
  /-- The type that is asked for. -/
  symbol : TypeSymbol
  /-- The query on names. -/
  nameQuery : String
  /-- Whether only children of a scope are asked for. -/
  direct : Bool
  /-- How hidden nodes are treated. -/
  visibility : VisibilityMode
  /-- Which of the matches are kept. -/
  pick : Option RankPick := none
  /-- Whether the first match ends the evaluation. -/
  stopAtFirst : Bool := false
  /-- Whether this is the first segment. -/
  isFirst : Bool := false
  /-- Whether this is the last segment. -/
  isFinal : Bool := false
  /-- Whether the segment stands for a slash at the end of the query. -/
  implicit : Bool := false
deriving DecidableEq, Repr

def SegmentPlan.describe (s : SegmentPlan) : String :=
  let extra := match s.pick with
    | none => ""
    | some pick => " pick=" ++ pick.scope.name ++ ":" ++ toString pick.index
  (if s.direct then "//" else "/") ++ s.symbol.spelling ++ quoted s.nameQuery ++
    " [" ++ s.visibility.name ++ "]" ++ extra

/-- A resolved query. -/
structure QueryPlan where
  /-- The query as it was given. -/
  raw : String
  /-- The segments. -/
  segments : List SegmentPlan := []
  /-- What holds for the whole query. -/
  modifiers : QueryModifiers := {}
  /-- Whether the search starts below the selection without matching it. -/
  childSearch : Bool := false
  /-- Which of the results is kept. -/
  finalPick : Option RankPick := none
deriving DecidableEq, Repr

namespace QueryPlan

def isEmpty (p : QueryPlan) : Bool := p.segments.isEmpty

/-- Whether the first segment names the page to search. -/
def hasPageDirective (p : QueryPlan) : Bool :=
  match p.segments with
  | [] => false
  | s :: _ => s.symbol == .page

def describe (p : QueryPlan) : String :=
  let final := match p.finalPick with
    | none => ""
    | some pick => " final-pick=" ++ toString pick.index
  " ".intercalate (p.segments.map SegmentPlan.describe) ++ final

/-! ## From pieces to segments -/

/-- A piece without its modifiers, and these. -/
structure CleanPiece where
  /-- The separator in front. -/
  separator : Separator
  /-- What is left of the text. -/
  text : List Char
  /-- The modifiers that stood in it. -/
  modifiers : List Modifier
deriving DecidableEq, Repr

/-- Takes the modifiers out of a piece. -/
def CleanPiece.ofPiece (p : Piece) : Except TooManyDigits CleanPiece :=
  (Modifier.extract p.text).map fun r ↦ ⟨p.separator, r.text, r.modifiers⟩

/-- A piece that has become a segment. -/
structure PlacedPiece where
  /-- The piece. -/
  piece : CleanPiece
  /-- Whether it is matched among children only. -/
  direct : Bool
  /-- Whether it stands for a slash at the end. -/
  implicit : Bool
deriving DecidableEq, Repr

/-- Which pieces become segments. An empty piece at the end stands for any layer if a slash is in
front of it; other empty pieces are dropped, and a double slash in front of one carries over to the
next segment. -/
def arrange (carried : Bool) : List CleanPiece → List PlacedPiece
  | [] => []
  | p :: rest =>
    let direct := carried || p.separator == .direct
    if !p.text.isEmpty then ⟨p, direct, false⟩ :: arrange false rest
    -- a query that is empty as a whole starts nothing
    else if rest.isEmpty && p.separator != .start then [⟨p, direct, true⟩]
    else arrange direct rest

/-- Which matches of a segment are kept: for the last segment what the query says, for another one
what its own piece says. -/
def pickFor (m : QueryModifiers) (piece : CleanPiece) (isFinal : Bool) : Option RankPick :=
  if m.firstOverall then none
  else if isFinal then
    match m.indexEach with
    | some n => some ⟨.perScope, n⟩
    | none => if m.firstEach then some ⟨.perScope, 1⟩ else none
  else
    match Modifier.lastIndexEach? piece.modifiers with
    | some n => some ⟨.perScope, n⟩
    | none => (Modifier.lastIndex? piece.modifiers).map fun n ↦ ⟨.overall, n⟩

def segmentOf (m : QueryModifiers) (p : PlacedPiece) (isFirst isFinal : Bool) : SegmentPlan :=
  let (symbol, name) := if p.implicit then (.any, []) else splitSymbol p.piece.text
  { symbol, nameQuery := String.ofList name, direct := p.direct,
    visibility := .resolve m.hiddenOnly m.allLayers isFinal,
    pick := pickFor m p.piece isFinal, stopAtFirst := m.firstOverall, isFirst, isFinal,
    implicit := p.implicit }

/-- The segments of the pieces, the first one marked as first if `isFirst`. -/
def segmentsOf (m : QueryModifiers) (isFirst : Bool) : List PlacedPiece → List SegmentPlan
  | [] => []
  | p :: rest => segmentOf m p isFirst rest.isEmpty :: segmentsOf m false rest

/-- What the modifiers of all pieces say; an index counts only in the last piece. -/
def modifiersOf (pieces : List CleanPiece) : QueryModifiers :=
  let all := pieces.flatMap CleanPiece.modifiers
  let last := (pieces.getLast?.map CleanPiece.modifiers).getD []
  { firstOverall := all.contains .firstOverall, firstEach := all.contains .firstEach,
    hiddenOnly := all.contains .hiddenOnly, allLayers := all.contains .allLayers,
    index := Modifier.lastIndex? last, indexEach := Modifier.lastIndexEach? last }

/-- The plan of a query whose modifiers have been taken out. A slash in front of everything starts
the search below the selection; what follows it is the first piece then. -/
def ofPieces (raw : String) (pieces : List CleanPiece) : QueryPlan :=
  let modifiers := modifiersOf pieces
  let (childSearch, rest) : Bool × List CleanPiece := match pieces with
    | first :: second :: rest =>
      -- a first piece with nothing but modifiers counts as empty, and they have been read above
      if first.text.isEmpty then (true, second :: rest) else (false, pieces)
    | _ => (false, pieces)
  let segments := segmentsOf modifiers true (arrange false rest)
  let finalPick := match modifiers.index with
    | none => none
    | some n =>
      if modifiers.firstOverall || segments.isEmpty then none else some ⟨.overall, n⟩
  { raw, segments, modifiers, childSearch, finalPick }

end QueryPlan

def parseQuery (query : String) : Except TooManyDigits QueryPlan := do
  let pieces := Piece.split (String.ofList (trim query.toList))
  let clean ← pieces.mapM QueryPlan.CleanPiece.ofPiece
  pure (QueryPlan.ofPieces query clean)

end SceneSearch
