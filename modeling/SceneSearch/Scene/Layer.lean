/-!
# Layers

A layer is what the document says about one node, its children apart: what kind of thing it is, how
it is called, whether it is shown, where it lies, and how it is painted. Geometry is absolute and
may be unknown, as it is for pages.
-/

namespace SceneSearch

/-! ## Kinds -/

/-- The kinds of nodes. -/
inductive NodeKind where
  | document
  | page
  | sectionLayer
  | frame
  | group
  | instanceLayer
  | component
  | componentSet
  | rectangle
  | ellipse
  | polygon
  | star
  | line
  | vector
  | text
  | other
deriving DecidableEq, Repr, Inhabited

namespace NodeKind

def all : List NodeKind :=
  [document, page, sectionLayer, frame, group, instanceLayer, component, componentSet, rectangle,
    ellipse, polygon, star, line, vector, text, other]

def name : NodeKind → String
  | document => "DOCUMENT"
  | page => "PAGE"
  | sectionLayer => "SECTION"
  | frame => "FRAME"
  | group => "GROUP"
  | instanceLayer => "INSTANCE"
  | component => "COMPONENT"
  | componentSet => "COMPONENT_SET"
  | rectangle => "RECTANGLE"
  | ellipse => "ELLIPSE"
  | polygon => "POLYGON"
  | star => "STAR"
  | line => "LINE"
  | vector => "VECTOR"
  | text => "TEXT"
  | other => "OTHER"

def ofName? (s : String) : Option NodeKind := all.find? (·.name == s)

/-- Pages and documents hold layers and are none themselves. -/
def isRootLike (k : NodeKind) : Bool := k == page || k == document

end NodeKind

/-! ## Automatic layout -/

/-- The axis along which a container arranges its children by itself. -/
inductive LayoutAxis where
  | vertical
  | horizontal
deriving DecidableEq, Repr, Inhabited

namespace LayoutAxis

def name : LayoutAxis → String
  | vertical => "VERTICAL"
  | horizontal => "HORIZONTAL"

def ofName? (s : String) : Option LayoutAxis :=
  if s = vertical.name then some vertical
  else if s = horizontal.name then some horizontal
  else none

theorem ofName?_eq_some_iff {s : String} {a : LayoutAxis} : ofName? s = some a ↔ s = a.name := by
  constructor
  · intro h
    rw [ofName?] at h
    split at h
    · obtain rfl := Option.some.inj h
      assumption
    · split at h
      · obtain rfl := Option.some.inj h
        assumption
      · cases h
  · rintro rfl
    cases a <;> decide

end LayoutAxis

/-! ## Layers -/

/-- What a document says about one node. -/
structure Layer where
  /-- The id, which exports keep unique. -/
  id : String
  /-- The kind. -/
  kind : NodeKind
  /-- The name. -/
  name : String := ""
  /-- The node's own visibility flag. -/
  visible : Bool := true
  /-- Left edge. -/
  x : Option Float := none
  /-- Upper edge. -/
  y : Option Float := none
  /-- Width. -/
  width : Option Float := none
  /-- Height. -/
  height : Option Float := none
  /-- Axis of automatic layout. -/
  axis : Option LayoutAxis := none
  /-- The types of the paints, back to front. -/
  fills : List String := []
deriving Inhabited

namespace Layer

def hasGeometry (l : Layer) : Bool := l.x.isSome && l.y.isSome

/-- Whether some paint is an image, whatever the kind. -/
def hasImage (l : Layer) : Bool := l.fills.contains "IMAGE"

end Layer

end SceneSearch
