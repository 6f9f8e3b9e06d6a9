import SceneSearch.Scene.Layer

/-!
# Type symbols

A segment of a query may start with a symbol that restricts it to a type of layer. Most types are
sets of kinds. Images are not, since a layer of any kind may be painted with an image, and a layer
that is painted with one is no longer a shape. The same symbols mark layers in displayed paths.
-/

namespace SceneSearch

/-- What a segment may be restricted to; `any` is the absence of a symbol. -/
inductive TypeSymbol where
  | page
  | sectionLayer
  | frame
  | instanceLayer
  | component
  | image
  | shape
  | text
  | any
deriving DecidableEq, Repr, Inhabited

/-! ## Sets of kinds -/

def frameKinds : List NodeKind := [.frame, .group]

/-- Components, alone or in a set of variants. -/
def componentKinds : List NodeKind := [.component, .componentSet]

def shapeKinds : List NodeKind := [.rectangle, .ellipse, .polygon, .star, .line, .vector]

namespace TypeSymbol

/-! ## Spelling -/

/-- The symbols that are written, in the order in which they are listed. -/
def written : List TypeSymbol :=
  [page, sectionLayer, frame, instanceLayer, component, image, shape, text]

def char? : TypeSymbol → Option Char
  | page => some '#'
  | sectionLayer => some '$'
  | frame => some '@'
  | instanceLayer => some '!'
  | component => some '?'
  | image => some '&'
  | shape => some '%'
  | text => some '='
  | any => none

/-- The symbol as it is written: one character, or nothing. -/
def spelling (s : TypeSymbol) : String := (s.char?.map Char.toString).getD ""

def name : TypeSymbol → String
  | page => "PAGE"
  | sectionLayer => "SECTION"
  | frame => "FRAME"
  | instanceLayer => "INSTANCE"
  | component => "COMPONENT"
  | image => "IMAGE"
  | shape => "SHAPE"
  | text => "TEXT"
  | any => "ANY"

/-- The symbol that a character writes. -/
def ofChar? (c : Char) : Option TypeSymbol := written.find? fun s ↦ s.char? == some c

/-- The symbol that a text of one character writes. -/
def ofText? (s : String) : Option TypeSymbol :=
  match s.toList with
  | [c] => ofChar? c
  | _ => none

theorem ofChar?_eq_some {c : Char} {s : TypeSymbol} : ofChar? c = some s ↔ s.char? = some c := by
  constructor
  · intro h
    simpa using List.find?_some h
  · intro h
    cases s <;> simp only [char?, Option.some.injEq, reduceCtorEq] at h <;> subst h <;> decide

/-! ## Gates -/

/-- A shape is a layer of a shape kind without an image. -/
def isShape (l : Layer) : Bool := shapeKinds.contains l.kind && !l.hasImage

def admits : TypeSymbol → Layer → Bool
  | page, l => l.kind == .page
  | sectionLayer, l => l.kind == .sectionLayer
  | frame, l => frameKinds.contains l.kind
  | instanceLayer, l => l.kind == .instanceLayer
  | component, l => componentKinds.contains l.kind
  | image, l => l.hasImage
  | shape, l => isShape l
  | text, l => l.kind == .text
  | any, _ => true

/-- The kinds that a symbol admits, for the symbols whose layers are looked up in bulk. -/
def poolKinds? : TypeSymbol → Option (List NodeKind)
  | sectionLayer => some [.sectionLayer]
  | frame => some frameKinds
  | instanceLayer => some [.instanceLayer]
  | component => some componentKinds
  | _ => none

/-- A bulk lookup by kinds finds what the symbol admits. -/
theorem admits_eq_contains {s : TypeSymbol} {kinds : List NodeKind} (h : s.poolKinds? = some kinds)
    (l : Layer) : s.admits l = kinds.contains l.kind := by
  cases s <;> simp only [poolKinds?, Option.some.injEq, reduceCtorEq] at h <;> subst h <;>
    simp [admits, Bool.beq_eq_decide_eq]

/-! ## Display -/

/-- The symbol that marks a layer; `any` for a layer of no type. -/
def ofLayer (l : Layer) : TypeSymbol :=
  if l.kind = .page then page
  else if l.kind = .sectionLayer then sectionLayer
  else if frameKinds.contains l.kind then frame
  else if l.kind = .instanceLayer then instanceLayer
  else if componentKinds.contains l.kind then component
  else if l.kind = .text then text
  else if l.hasImage then image
  else if shapeKinds.contains l.kind then shape
  else any

/-- The symbol that marks a layer admits it. -/
theorem admits_ofLayer (l : Layer) : (ofLayer l).admits l = true := by
  unfold ofLayer
  repeat' split
  all_goals simp_all [admits, isShape]

end TypeSymbol

/-- The mark and the name of a layer. -/
def Layer.label (l : Layer) : String := (TypeSymbol.ofLayer l).spelling ++ l.name

end SceneSearch
