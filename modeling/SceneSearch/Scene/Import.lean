import SceneSearch.Json.Reader
import SceneSearch.Json.Shown
import SceneSearch.Scene.Document

/-!
# Importing exports

An export is an object with a list of pages; every entry below it is an object with an id, and has
its own entries under `children`. Entries wait in a queue, the pages first, and are taken one by
one: an entry becomes a node below that of its parent, and what it lists joins the queue. So entries
are met level by level, each level in the order of the export, and the first bad one ends the
import: for what it is, for a text that cannot be written, for its numbers, for its paints, for an
id that an entry before it has, or for children that cannot be gone through.
-/

namespace SceneSearch

/-! ## Refusals -/

/-- Why an export is refused. Values are kept as the message shows them. -/
inductive ImportFault where
  /-- Not an object with a list of pages. -/
  | notAnExport
  /-- An entry that is no object with an id. -/
  | notAnEntry (shown : String)
  /-- A coordinate that is no number. -/
  | notANumber (id key shown : String)
  /-- A coordinate that no double can hold. -/
  | numberTooLarge
  /-- Paints that are no list of objects. -/
  | badFills (id shown : String)
  /-- An id that an earlier entry has. -/
  | duplicateId (id : String)
  /-- Children that cannot be gone through. -/
  | notIterable (type : String)
  /-- An integer with too many digits in what becomes a text or is shown in a message. -/
  | unwritable
deriving DecidableEq, Repr

def ImportFault.message : ImportFault → String
  | notAnExport => "Scene export must be an object with a 'pages' list"
  | notAnEntry shown => "Node entry must be an object with an id, got " ++ shown
  | notANumber id key shown => "Node " ++ id ++ ": " ++ key ++ " must be a number, got " ++ shown
  | numberTooLarge => "int too large to convert to float"
  | badFills id shown => "Node " ++ id ++ ": fills must be a list of objects, got " ++ shown
  | duplicateId id => "Duplicate node id: " ++ quoted id
  | notIterable type => "'" ++ type ++ "' object is not iterable"
  | unwritable => unwritableInteger

namespace Import

/-! ## Texts -/

def text (v : Json) : Except ImportFault String :=
  match v.asText? with
  | some text => .ok text
  | none => .error .unwritable

/-- The text of the value of a key, or another text if the key is absent. -/
def textAt (v : Json) (key absent : String) : Except ImportFault String :=
  match v.get? key with
  | none => .ok absent
  | some value => text value

/-- The fault of an entry whose message shows its id and a value that was found. -/
def faultAt (v found : Json) (fault : String → String → ImportFault) : ImportFault :=
  ((v.shownKey? "id").bind fun id ↦ found.shown?.map (fault id)).getD .unwritable

/-! ## Kinds -/

/-- The upper case of a character, where it consists of letters of kind names. -/
def kindLetters (c : Char) : List Char :=
  if 'a' ≤ c ∧ c ≤ 'z' then [Char.ofNat (c.toNat - 32)]
  else match c with
    | 'ß' => ['S', 'S']
    | 'ı' => ['I']
    | 'ſ' => ['S']
    | 'ﬀ' => ['F', 'F']
    | 'ﬁ' => ['F', 'I']
    | 'ﬂ' => ['F', 'L']
    | 'ﬃ' => ['F', 'F', 'I']
    | 'ﬄ' => ['F', 'F', 'L']
    | 'ﬅ' => ['S', 'T']
    | 'ﬆ' => ['S', 'T']
    | _ => [c]

/-- The kind that a text names in letters of any case; any other text names no known kind. -/
def kindOf (text : String) : NodeKind :=
  (NodeKind.ofName? (String.ofList (text.toList.flatMap kindLetters))).getD .other

/-- The kind that a value names. A value that cannot be written names no known kind either. -/
def kindNamed (v : Json) : NodeKind := (v.asText?.map kindOf).getD .other

/-! ## Layers -/

/-- The value of a key if it counts as something. -/
def truthy? (v : Json) (key : String) : Option Json := (v.get? key).filter Json.isTruthy

def coordinate (v : Json) (key : String) : Except ImportFault (Option Float) :=
  match v.get? key with
  | none | some .null => .ok none
  | some (.float x) => .ok (some x)
  | some (.int n) =>
    match floatOfInt? n with
    | some x => .ok (some x)
    | none => .error .numberTooLarge
  | some other => .error (faultAt v other fun id shown ↦ .notANumber id key shown)

/-- The items of a list of objects. -/
def objects? : Json → Option (List Json)
  | .array items => if items.all Json.isObject then some items else none
  | _ => none

/-- The types of the paints. -/
def fills (v : Json) : Except ImportFault (List String) :=
  match truthy? v "fills" with
  | none => .ok []
  | some value =>
    match objects? value with
    | some paints => paints.mapM fun paint ↦ textAt paint "type" ""
    | none => .error (faultAt v value .badFills)

def axis? (v : Json) : Option LayoutAxis :=
  match v.get? "layoutMode" with
  | some (.string s) => LayoutAxis.ofName? s
  | _ => none

/-- The layer that an entry writes down, of a given kind or of the kind that it names. -/
def layer (kind? : Option NodeKind) (v : Json) : Except ImportFault Layer :=
  match v.get? "id" with
  | none => .error ((v.shown?.map .notAnEntry).getD .unwritable)
  | some id => do
    let kind := kind?.getD (kindNamed ((v.get? "type").getD .null))
    let id ← text id
    let name ← textAt v "name" ""
    let x ← coordinate v "x"
    let y ← coordinate v "y"
    let width ← coordinate v "width"
    let height ← coordinate v "height"
    let fills ← fills v
    pure {
      id, kind, name, visible := ((v.get? "visible").map Json.isTruthy).getD true, x, y, width,
      height, axis := axis? v, fills }

/-! ## Children -/

/-- The single characters of a text, as values. -/
def characters (s : String) : List Json := s.toList.map fun c ↦ .string (String.ofList [c])

def keys (entries : List (String × Json)) : List Json := entries.map fun e ↦ .string e.1

/-- What a value is gone through as: a list by its items, a text by its characters, an object by its
keys. -/
def iterate : Json → Except ImportFault (List Json)
  | .array items => .ok items
  | .string s => .ok (characters s)
  | .object entries => .ok (keys entries)
  | .null => .error (.notIterable "NoneType")
  | .bool _ => .error (.notIterable "bool")
  | .int _ => .error (.notIterable "int")
  | .float _ => .error (.notIterable "float")

/-- What an entry lists. A value that counts as nothing holds no children. -/
def children (v : Json) : Except ImportFault (List Json) :=
  match truthy? v "children" with
  | none => .ok []
  | some value => iterate value

/-! ## The queue -/

/-- An entry that waits for its turn. -/
structure Waiting where
  /-- Where the node of its parent stands in the tree. -/
  parent : List Nat
  /-- What is written down. -/
  entry : Json
  /-- Whether it is a page, whatever type it names. -/
  isPage : Bool := false

def Waiting.kind? (w : Waiting) : Option NodeKind := if w.isPage then some .page else none

/-- A tree under construction. -/
structure Draft where
  /-- The nodes of the entries that were taken. -/
  tree : Node
  /-- Their ids. -/
  seen : List String
  /-- The entries that wait, those that came first in front. -/
  waiting : List Waiting

namespace Draft

/-- The root alone; the pages wait. -/
def start (root : Layer) (pages : List Json) : Draft where
  tree := ⟨root, []⟩
  seen := [root.id]
  waiting := pages.map fun page ↦ ⟨[], page, true⟩

/-- Takes the first entry that waits, with those behind it: it becomes the foremost child of its
parent, and what it lists waits behind everything else. -/
def take (d : Draft) (w : Waiting) (rest : List Waiting) : Except ImportFault Draft := do
  let layer ← layer w.kind? w.entry
  if d.seen.contains layer.id then throw (.duplicateId layer.id)
  let below ← children w.entry
  let address := d.tree.nextAddress w.parent
  pure {
    tree := d.tree.append w.parent [⟨layer, []⟩], seen := layer.id :: d.seen,
    waiting := rest ++ below.map fun entry ↦ ⟨address, entry, false⟩ }

/-! ### The queue runs empty -/

/-- What a value may add to the queue. A text is no entry, and adds nothing. -/
noncomputable def weight : Json → Nat
  | .string _ => 0
  | v => sizeOf v

/-- What entries may add to the queue. -/
noncomputable def totalWeight : List Waiting → Nat
  | [] => 0
  | w :: rest => weight w.entry + totalWeight rest

theorem totalWeight_append (first second : List Waiting) :
    totalWeight (first ++ second) = totalWeight first + totalWeight second := by
  induction first with
  | nil => simp [totalWeight]
  | cons w rest ih => rw [List.cons_append, totalWeight, totalWeight, ih, Nat.add_assoc]

theorem totalWeight_texts {α : Type} (address : List Nat) (text : α → String) (items : List α) :
    totalWeight ((items.map fun a ↦ Json.string (text a)).map fun entry ↦ ⟨address, entry, false⟩) =
      0 := by
  induction items with
  | nil => rfl
  | cons a rest ih => simpa [totalWeight, weight] using ih

theorem totalWeight_le_sizeOf (address : List Nat) (items : List Json) :
    totalWeight (items.map fun entry ↦ ⟨address, entry, false⟩) ≤ sizeOf items := by
  induction items with
  | nil => simp [totalWeight]
  | cons v rest ih =>
    have hv : weight v ≤ sizeOf v := by
      rw [weight.eq_def]
      split <;> omega
    simp only [totalWeight, List.map_cons, List.cons.sizeOf_spec]
    omega

theorem totalWeight_le_of_iterate {v : Json} {below : List Json} (address : List Nat)
    (h : iterate v = .ok below) :
    totalWeight (below.map fun entry ↦ ⟨address, entry, false⟩) ≤ sizeOf v := by
  cases v with
  | array items =>
    obtain rfl := Except.ok.inj h
    have hle := totalWeight_le_sizeOf address items
    rw [Json.array.sizeOf_spec]
    omega
  | string s =>
    obtain rfl := Except.ok.inj h
    rw [characters, totalWeight_texts]
    exact Nat.zero_le _
  | object entries =>
    obtain rfl := Except.ok.inj h
    rw [keys, totalWeight_texts]
    exact Nat.zero_le _
  | _ => cases h

/-- What an entry lists weighs less than the entry. -/
theorem totalWeight_lt_of_children {v : Json} {below : List Json} (address : List Nat)
    (h : children v = .ok below) :
    totalWeight (below.map fun entry ↦ ⟨address, entry, false⟩) < sizeOf v := by
  rw [children] at h
  split at h
  · obtain rfl := Except.ok.inj h
    cases v <;> (simp [totalWeight]; try omega)
  · rename_i value hvalue
    exact Nat.lt_of_le_of_lt (totalWeight_le_of_iterate address h)
      (Json.sizeOf_lt_of_get? (Option.filter_eq_some_iff.mp hvalue).1)

/-- An entry with a layer is no text. -/
theorem weight_of_layer {kind? : Option NodeKind} {v : Json} {l : Layer}
    (h : layer kind? v = .ok l) : weight v = sizeOf v := by
  cases v with
  | string s => cases h
  | _ => rfl

/-- **Taking an entry makes the queue lighter.** -/
theorem totalWeight_take {d next : Draft} {w : Waiting} {rest : List Waiting}
    (h : d.take w rest = .ok next) : totalWeight next.waiting < totalWeight (w :: rest) := by
  rw [take] at h
  cases hlayer : layer w.kind? w.entry with
  | error fault =>
    rw [hlayer] at h
    cases h
  | ok l =>
    rw [hlayer] at h
    dsimp only [bind, Except.bind] at h
    split at h
    · cases h
    · cases hbelow : children w.entry with
      | error fault =>
        rw [hbelow] at h
        cases h
      | ok below =>
        rw [hbelow] at h
        obtain rfl := Except.ok.inj h
        have hlt := totalWeight_lt_of_children (d.tree.nextAddress w.parent) hbelow
        have hcons : totalWeight (w :: rest) = weight w.entry + totalWeight rest := rfl
        rw [totalWeight_append, hcons, weight_of_layer hlayer]
        omega

/-- Takes entries until none waits. -/
def build (d : Draft) : Except ImportFault Node :=
  match _hwaiting : d.waiting with
  | [] => .ok d.tree
  | w :: rest =>
    match _hnext : d.take w rest with
    | .error fault => .error fault
    | .ok next => next.build
termination_by totalWeight d.waiting
decreasing_by
  rw [_hwaiting]
  exact totalWeight_take _hnext

end Draft

end Import

/-! ## Exports -/

/-- The document that an export writes down. The entries of `pages` are pages whatever type they
name. -/
def Document.ofExport (v : Json) : Except ImportFault Document :=
  match v, v.get? "pages" with
  | .object _, some (.array pages) => do
    let id ← Import.textAt v "id" "0:0"
    let name ← Import.textAt v "name" ""
    let tree ← (Import.Draft.start { id, kind := .document, name } pages).build
    pure (Document.ofRoot tree)
  | _, _ => .error .notAnExport

/-- Why a file cannot be loaded. -/
inductive LoadFault where
  /-- Not text. -/
  | invalidText
  /-- Not JSON. -/
  | invalidJson
  /-- An integer with too many digits. -/
  | integerTooLong (cause : TooManyDigits)
  /-- JSON that is no export. -/
  | refused (cause : ImportFault)
deriving DecidableEq, Repr

/-- The wording of a failure, for a file with a name. -/
def LoadFault.message (file : String) : LoadFault → String
  | invalidText => file ++ ": invalid UTF-8"
  | invalidJson => file ++ ": invalid JSON"
  | integerTooLong cause => cause.message
  | refused cause => cause.message

/-- The document that a text writes down. -/
def Document.ofText (text : String) : Except LoadFault Document :=
  match Json.parse text with
  | .error .malformed => .error .invalidJson
  | .error (.integerTooLong cause) => .error (.integerTooLong cause)
  | .ok v => (Document.ofExport v).mapError .refused

/-- The document that the bytes of a file write down. -/
def Document.ofBytes (bytes : ByteArray) : Except LoadFault Document :=
  match String.fromUTF8? bytes with
  | none => .error .invalidText
  | some text => Document.ofText text

end SceneSearch
