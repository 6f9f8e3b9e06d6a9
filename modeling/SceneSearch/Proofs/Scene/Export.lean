import SceneSearch.Proofs.Number.Range
import SceneSearch.Proofs.Scene.Import
import SceneSearch.Proofs.Traversal

/-!
# Well-formed exports

What an import accepts is said here without its levels and its checks: `Document.IsExport` speaks of
the entries that are reached from the pages through `children`, each of which must be an entry on
its own, and of their ids. One thing is asked besides, by `Document.IsWritten`: no integer with too
many digits stands in what becomes an id, a name or the type of a paint.

Below an entry nothing but lists of entries is accepted. A text or an object under `children` is
gone through as well, but then gives characters or keys, which are no entries, so that a level holds
a bad entry exactly if something reached is none: `Import.accepts_levels_iff`.

What is accepted is rebuilt: `Import.Writes` says which key gives which part of a layer, and
`Import.Image` relates an entry to a node of the document, child by child.
-/

namespace SceneSearch

namespace Json

/-! ## Entries -/

/-- A value that a coordinate may have: nothing, a double, or an integer that fits into one. -/
def IsMeasure : Json → Prop
  | null | float _ => True
  | int n => FitsDouble n
  | _ => False

/-- A list of objects, or a value that counts as nothing. -/
def IsObjectsOrNothing (v : Json) : Prop :=
  v.isTruthy = true → ∃ items, v = array items ∧ ∀ item ∈ items, ∃ entries, item = object entries

/-- An entry of an export. -/
structure IsEntry (v : Json) : Prop where
  /-- It is an object. -/
  object : ∃ entries, v = object entries
  /-- It has an id, whatever that is. -/
  id : (v.get? "id").isSome
  /-- Its coordinates are numbers, if they are there. -/
  coordinates : ∀ key ∈ ["x", "y", "width", "height"], ∀ w ∈ v.get? key, w.IsMeasure
  /-- Its paints are objects. -/
  fills : ∀ w ∈ v.get? "fills", w.IsObjectsOrNothing
  /-- Its children are listed. -/
  children : ∀ w ∈ v.get? "children", w.IsListOrNothing

/-! ## Values that can be written -/

/-- An integer stands in a value, at whatever depth. -/
inductive Holds : Json → Int → Prop
  | int (n : Int) : Holds (int n) n
  | item {items : List Json} {v : Json} {n : Int} (hv : v ∈ items) (h : Holds v n) :
    Holds (array items) n
  | entry {entries : List (String × Json)} {e : String × Json} {n : Int} (he : e ∈ entries)
    (h : Holds e.2 n) : Holds (object entries) n

/-- No integer that stands in a value has too many digits. -/
def IsWritable (v : Json) : Prop := ∀ n, v.Holds n → n.natAbs < 10 ^ digitLimit

private theorem isWritable_int {n : Int} : (int n).IsWritable ↔ n.natAbs < 10 ^ digitLimit :=
  ⟨fun h ↦ h n (.int n), fun h _ hn ↦ by cases hn; exact h⟩

private theorem isWritable_array {items : List Json} :
    (array items).IsWritable ↔ ∀ v ∈ items, v.IsWritable :=
  ⟨fun h _ hv n hn ↦ h n (.item hv hn), fun | h, n, .item hv hn => h _ hv n hn⟩

private theorem isWritable_object {entries : List (String × Json)} :
    (object entries).IsWritable ↔ ∀ e ∈ entries, e.2.IsWritable :=
  ⟨fun h _ he n hn ↦ h n (.entry he hn), fun | h, n, .entry he hn => h _ he n hn⟩

mutual

/-- A value can be shown exactly if no integer in it has too many digits. -/
theorem shown?_isSome_iff : ∀ v : Json, v.shown?.isSome ↔ v.IsWritable
  | null => by simp [shown?, IsWritable]; nofun
  | bool b => by simp [shown?, IsWritable]; nofun
  | int n => by
    rw [shown?, integerText?_isSome_iff, isWritable_int, Nat.pow_eq]
  | float x => by simp [shown?, IsWritable]; nofun
  | string s => by simp [shown?, IsWritable]; nofun
  | array items => by rw [shown?, Option.isSome_map, shownItems?_isSome_iff, isWritable_array]
  | object entries => by
    rw [shown?, Option.isSome_map, shownEntries?_isSome_iff, isWritable_object]

theorem shownItems?_isSome_iff :
    ∀ items : List Json, (shownItems? items).isSome ↔ ∀ v ∈ items, v.IsWritable
  | [] => by simp [shownItems?]
  | v :: rest => by
    rw [List.forall_mem_cons, ← shown?_isSome_iff v, ← shownItems?_isSome_iff rest, shownItems?]
    cases shown? v <;> cases shownItems? rest <;> simp

theorem shownEntries?_isSome_iff :
    ∀ entries : List (String × Json), (shownEntries? entries).isSome ↔
      ∀ e ∈ entries, e.2.IsWritable
  | [] => by simp [shownEntries?]
  | (key, v) :: rest => by
    rw [List.forall_mem_cons, ← shown?_isSome_iff v, ← shownEntries?_isSome_iff rest, shownEntries?]
    cases shown? v <;> cases shownEntries? rest <;> simp

end

theorem asText?_isSome_iff (v : Json) : v.asText?.isSome ↔ v.IsWritable := by
  rw [← shown?_isSome_iff]
  cases v <;> simp [asText?, shown?]

theorem textAt?_isSome_iff {v : Json} {key absent : String} :
    (v.textAt? key absent).isSome ↔ ∀ w ∈ v.get? key, w.IsWritable := by
  rw [textAt?]
  cases v.get? key with
  | none => simp
  | some w => simpa using asText?_isSome_iff w

/-- The paints that a value lists under `fills`. -/
def paints (v : Json) : List Json :=
  match v.get? "fills" with
  | some (array items) => items
  | _ => []

/-- What becomes a text in the layer of an entry can be written. -/
structure IsWritten (v : Json) : Prop where
  /-- The id. -/
  id : ∀ w ∈ v.get? "id", w.IsWritable
  /-- The name. -/
  name : ∀ w ∈ v.get? "name", w.IsWritable
  /-- The types of the paints. -/
  types : ∀ paint ∈ v.paints, ∀ w ∈ paint.get? "type", w.IsWritable

/-- What the value of a key says about a coordinate, if the key is there. -/
inductive Measures : Option Json → Option Float → Prop
  | absent : Measures none none
  | null : Measures (some null) none
  | float (x : Float) : Measures (some (float x)) (some x)
  | int {n : Int} {x : Float} (h : floatOfInt? n = some x) : Measures (some (int n)) (some x)

end Json

/-! ## Layers -/

namespace Import

variable {kind? : Option NodeKind} {v : Json} {l : Layer}

theorem coordinate_eq_ok_iff {key : String} {x : Option Float} :
    coordinate v key = .ok x ↔ Json.Measures (v.get? key) x := by
  rw [coordinate]
  cases v.get? key with
  | none => exact ⟨fun h ↦ Except.ok.inj h ▸ .absent, fun | .absent => rfl⟩
  | some w =>
    cases w with
    | null => exact ⟨fun h ↦ Except.ok.inj h ▸ .null, fun | .null => rfl⟩
    | float y => exact ⟨fun h ↦ Except.ok.inj h ▸ .float y, fun | .float _ => rfl⟩
    | int n =>
      dsimp only
      cases hfloat : floatOfInt? n with
      | none => exact ⟨nofun, fun | .int h => by rw [hfloat] at h; cases h⟩
      | some y =>
        refine ⟨fun h ↦ Except.ok.inj h ▸ .int hfloat, fun | .int h => ?_⟩
        obtain rfl := Option.some.inj (hfloat.symm.trans h)
        rfl
    | _ => exact ⟨nofun, nofun⟩

theorem coordinate_isOk_iff (v : Json) (key : String) :
    (∃ x, coordinate v key = .ok x) ↔ ∀ w ∈ v.get? key, w.IsMeasure := by
  rw [coordinate]
  cases v.get? key with
  | none => simp
  | some w =>
    cases w with
    | int n =>
      simp only [Option.mem_def, Option.some.injEq, forall_eq']
      refine Iff.trans ?_ (floatOfInt?_isSome_iff n)
      cases floatOfInt? n <;> simp
    | _ => simp [Json.IsMeasure]

theorem objects?_eq_some_iff {items : List Json} :
    objects? v = some items ↔
      v = .array items ∧ ∀ item ∈ items, ∃ entries, item = .object entries := by
  have hobject (item : Json) : item.isObject = true ↔ ∃ entries, item = .object entries := by
    cases item <;> simp [Json.isObject]
  cases v with
  | array items' =>
    rw [objects?, Option.ite_none_right_eq_some, List.all_eq_true]
    simp only [hobject, Option.some.injEq, Json.array.injEq]
    constructor
    · rintro ⟨hall, rfl⟩
      exact ⟨rfl, hall⟩
    · rintro ⟨rfl, hall⟩
      exact ⟨hall, rfl⟩
  | _ => simp [objects?]

theorem isObjectsOrNothing_iff (hv : v.isTruthy) :
    v.IsObjectsOrNothing ↔ ∃ items, objects? v = some items := by
  simp [Json.IsObjectsOrNothing, hv, objects?_eq_some_iff]

theorem fills_eq_ok_iff {types : List String} :
    fills v = .ok types ↔ (∀ w ∈ v.get? "fills", w.IsObjectsOrNothing) ∧
      List.Forall₂ (fun paint type ↦ paint.textAt? "type" "" = some type) v.paints types := by
  rw [fills, truthy?, Json.paints]
  cases v.get? "fills" with
  | none => simp [List.forall₂_nil_left_iff, eq_comm]
  | some w =>
    rw [Option.filter_some]
    by_cases hw : w.isTruthy
    · rw [if_pos hw]
      simp only [Option.mem_def, Option.some.injEq, forall_eq', isObjectsOrNothing_iff hw]
      cases hitems : objects? w with
      | none => simp
      | some items =>
        obtain ⟨rfl, -⟩ := objects?_eq_some_iff.mp hitems
        simp [mapM_eq_ok_iff, textAt_eq_ok_iff]
    · have hnothing : w.IsObjectsOrNothing := fun h ↦ absurd h hw
      rw [if_neg hw]
      cases w with
      | array items =>
        obtain rfl : items = [] := by simpa [Json.isTruthy] using hw
        simp [hnothing, List.forall₂_nil_left_iff, eq_comm]
      | _ => simp [hnothing, List.forall₂_nil_left_iff, eq_comm]

theorem exists_forall₂_iff {α β : Type} {R : α → β → Prop} {items : List α} :
    (∃ results, List.Forall₂ R items results) ↔ ∀ a ∈ items, ∃ b, R a b := by
  induction items with
  | nil => simp
  | cons a rest ih =>
    rw [List.forall_mem_cons, ← ih]
    simp only [List.forall₂_cons_left_iff]
    constructor
    · rintro ⟨_, b, bs, hb, hbs, rfl⟩
      exact ⟨⟨b, hb⟩, bs, hbs⟩
    · rintro ⟨⟨b, hb⟩, bs, hbs⟩
      exact ⟨b :: bs, b, bs, hb, hbs, rfl⟩

theorem fills_isOk_iff (v : Json) :
    (∃ types, fills v = .ok types) ↔ (∀ w ∈ v.get? "fills", w.IsObjectsOrNothing) ∧
      ∀ paint ∈ v.paints, ∀ w ∈ paint.get? "type", w.IsWritable := by
  simp only [fills_eq_ok_iff, exists_and_left, exists_forall₂_iff, ← Option.isSome_iff_exists,
    Json.textAt?_isSome_iff]

/-- An entry writes a layer down if its id, its coordinates and its paints are good, and what
becomes a text can be written. -/
theorem hasLayer_iff : HasLayer v ↔ (v.get? "id").isSome ∧
    (∀ key ∈ ["x", "y", "width", "height"], ∀ w ∈ v.get? key, w.IsMeasure) ∧
      (∀ w ∈ v.get? "fills", w.IsObjectsOrNothing) ∧ v.IsWritten := by
  simp only [List.forall_mem_cons, ← coordinate_isOk_iff]
  constructor
  · rintro ⟨l, h⟩
    obtain ⟨hsome, hid, -, hname, -, hx, hy, hwidth, hheight, -, hfills⟩ := layer_eq_ok_iff.mp h
    obtain ⟨hobjects, htypes⟩ := (fills_isOk_iff v).mp ⟨_, hfills⟩
    exact ⟨hsome, ⟨⟨_, hx⟩, ⟨_, hy⟩, ⟨_, hwidth⟩, ⟨_, hheight⟩, nofun⟩, hobjects,
      Json.textAt?_isSome_iff.mp (Option.isSome_of_eq_some hid),
      Json.textAt?_isSome_iff.mp (Option.isSome_of_eq_some hname), htypes⟩
  · rintro ⟨hsome, ⟨⟨x, hx⟩, ⟨y, hy⟩, ⟨width, hwidth⟩, ⟨height, hheight⟩, -⟩, hobjects, hid, hname,
      htypes⟩
    obtain ⟨id, hid⟩ := Option.isSome_iff_exists.mp (Json.textAt?_isSome_iff.mpr hid)
    obtain ⟨name, hname⟩ := Option.isSome_iff_exists.mp (Json.textAt?_isSome_iff.mpr hname)
    obtain ⟨types, hfills⟩ := (fills_isOk_iff v).mpr ⟨hobjects, htypes⟩
    exact ⟨⟨id, _, name, _, x, y, width, height, _, types⟩, layer_eq_ok_iff.mpr
      ⟨hsome, hid, rfl, hname, rfl, hx, hy, hwidth, hheight, rfl, hfills⟩⟩

/-! ## Checks -/

/-- An entry passes its check on its own if and only if it is one and can be written, given that its
children are listed. -/
theorem isEntry_and_isWritten_iff :
    v.IsEntry ∧ v.IsWritten ↔ Accepts v ∧ ∀ w ∈ v.get? "children", w.IsListOrNothing := by
  rw [Accepts, hasLayer_iff]
  constructor
  · rintro ⟨h, hwritten⟩
    exact ⟨⟨⟨h.id, h.coordinates, h.fills, hwritten⟩, _, children_eq_ok_listed h.children⟩,
      h.children⟩
  · rintro ⟨⟨⟨hid, hcoordinates, hfills, hwritten⟩, -⟩, hchildren⟩
    refine ⟨⟨?_, hid, hcoordinates, hfills, hchildren⟩, hwritten⟩
    cases v with
    | object entries => exact ⟨entries, rfl⟩
    | _ => cases hid

/-- **The checks find every bad entry**: the levels of an entry pass them exactly if everything that
is reached from it is an entry and can be written. -/
theorem accepts_levels_iff (v : Json) :
    (∀ e ∈ (levels v).flatten, Accepts e) ↔ ∀ e ∈ v.reached, e.IsEntry ∧ e.IsWritten := by
  induction v using Json.inductionListed with
  | step v ih =>
    rw [Json.forall_mem_reached, isEntry_and_isWritten_iff]
    -- both sides go on with what the entry lists
    have hbelow : (∀ e ∈ (levelsOfItems v.listed).flatten, Accepts e) ↔
        ∀ c ∈ v.listed, ∀ e ∈ c.reached, e.IsEntry ∧ e.IsWritten :=
      forall_mem_flatten_levelsOfItems.trans (forall₂_congr ih)
    constructor
    · intro h
      have hv : Accepts v := h v (by rw [levels_eq]; exact List.mem_cons_self)
      obtain ⟨below, hchildren⟩ := hv.2
      have hlisted := isListOrNothing_of_children hchildren fun e he ↦ (h e ?_).get?_id
      · rw [flatten_levels h, List.forall_mem_cons] at h
        exact ⟨⟨hv, hlisted⟩, hbelow.mp h.2⟩
      · rw [levels_of_children hchildren]
        exact List.mem_cons_of_mem v (mem_flatten_levelsOfItems he)
    · rintro ⟨⟨hv, hlisted⟩, hreached⟩
      rw [levels_of_children (children_eq_ok_listed hlisted)]
      exact List.forall_mem_cons.mpr ⟨hv, hbelow.mpr hreached⟩

theorem checkEntries_reached_iff {root : String} {pages : List Json} :
    (∃ after, checkEntries [root] (levelsOfItems pages).flatten = .ok after) ↔
      (∀ e ∈ pages.flatMap Json.reached, e.IsEntry ∧ e.IsWritten) ∧
        (root :: (pages.flatMap Json.reached).map idText).Nodup := by
  have hreached : (∀ e ∈ (levelsOfItems pages).flatten, Accepts e) ↔
      ∀ e ∈ pages.flatMap Json.reached, e.IsEntry ∧ e.IsWritten := by
    rw [forall_mem_flatten_levelsOfItems, List.forall_mem_flatMap]
    exact forall₂_congr fun c _ ↦ accepts_levels_iff c
  rw [checkEntries_isOk_iff, hreached]
  refine and_congr_right fun h ↦ List.Perm.nodup_iff (List.Perm.cons _ ?_)
  exact (flatten_levelsOfItems_perm_reached (hreached.mpr h)).map idText

/-! ## Images -/

/-- The layer is what the entry writes down: which key gives which part of it. -/
structure Writes (kind? : Option NodeKind) (e : Json) (l : Layer) : Prop where
  /-- The text of the value of `id`, which is there. -/
  id : ∃ w, e.get? "id" = some w ∧ w.asText? = some l.id
  /-- The given kind, or the kind that the value of `type` names. -/
  kind : l.kind = kind?.getD (kindNamed ((e.get? "type").getD .null))
  /-- The text of the value of `name`, or the empty text. -/
  name : e.textAt? "name" "" = some l.name
  /-- Whether the value of `visible` counts as something, or true. -/
  visible : l.visible = ((e.get? "visible").map Json.isTruthy).getD true
  /-- The left edge. -/
  x : Json.Measures (e.get? "x") l.x
  /-- The upper edge. -/
  y : Json.Measures (e.get? "y") l.y
  /-- The width. -/
  width : Json.Measures (e.get? "width") l.width
  /-- The height. -/
  height : Json.Measures (e.get? "height") l.height
  /-- The axis that `layoutMode` names. -/
  axis : ∀ a, l.axis = some a ↔ e.get? "layoutMode" = some (.string a.name)
  /-- The texts of `type` of the paints, in order, where an absent one is empty. -/
  fills : List.Forall₂ (fun paint type ↦ paint.textAt? "type" "" = some type) e.paints l.fills

theorem axis?_eq_some_iff {a : LayoutAxis} :
    axis? v = some a ↔ v.get? "layoutMode" = some (.string a.name) := by
  rw [axis?]
  cases v.get? "layoutMode" with
  | none => simp
  | some w =>
    cases w with
    | string s => simp [LayoutAxis.ofName?_eq_some_iff]
    | _ => simp

private theorem writes_of_layer (h : layer kind? v = .ok l) : Writes kind? v l := by
  obtain ⟨hsome, hid, hkind, hname, hvisible, hx, hy, hwidth, hheight, haxis, hfills⟩ :=
    layer_eq_ok_iff.mp h
  obtain ⟨w, hw⟩ := Option.isSome_iff_exists.mp hsome
  rw [Json.textAt?, hw] at hid
  exact {
    id := ⟨w, hw, hid⟩, kind := hkind, name := hname, visible := hvisible
    x := coordinate_eq_ok_iff.mp hx, y := coordinate_eq_ok_iff.mp hy
    width := coordinate_eq_ok_iff.mp hwidth, height := coordinate_eq_ok_iff.mp hheight
    axis := fun a ↦ by rw [haxis, axis?_eq_some_iff]
    fills := (fills_eq_ok_iff.mp hfills).2 }

/-- The node has the layer that the entry writes down, of a given kind or of the kind that it names,
and its children are the images of what the entry lists, in order, with the node as their parent. -/
inductive Image : Option NodeKind → Json → Spot → Prop
  | entry {kind? : Option NodeKind} {e : Json} {s : Spot} (writes : Writes kind? e s.layer)
      (children : List.Forall₂ (Image none) e.listed s.children)
      (parent : ∀ c ∈ s.children, c.parent? = some s) : Image kind? e s

/-- The children of a node whose links were never changed, against what its trees were built
from. -/
theorem forall₂_children {R : Json → Spot → Prop} {items : List Json}
    {s : Spot} (hlinks : s.scene.links = {}) (hnodes : s.node.children = nodes kind? items)
    (h : ∀ e ∈ items, ∀ i, R e (s.child i (node kind? e))) : List.Forall₂ R items s.children := by
  rw [Spot.children_of_links_eq hlinks, Spot.ownChildren, hnodes, nodes_eq_map]
  refine List.forall₂_iff_get.mpr ⟨by simp, fun i hi hi' ↦ ?_⟩
  simp only [List.get_eq_getElem, List.getElem_mapIdx, List.getElem_map]
  exact h _ (List.getElem_mem hi) i

theorem parent?_of_mem_children {s : Spot} (hlinks : s.scene.links = {}) :
    ∀ c ∈ s.children, c.parent? = some s := by
  intro c hc
  rw [Spot.children_of_links_eq hlinks] at hc
  obtain ⟨i, hi, rfl⟩ := List.mem_mapIdx.mp hc
  exact Spot.parent?_child hlinks i _

/-- **The tree of an entry is its image**, wherever it stands. -/
theorem image_node (v : Json) {kind? : Option NodeKind} {s : Spot}
    (h : ∀ e ∈ v.reached, e.IsEntry ∧ e.IsWritten) (hlinks : s.scene.links = {})
    (hnode : s.node = node kind? v) : Image kind? v s := by
  induction v using Json.inductionListed generalizing kind? s with
  | step v ih =>
    obtain ⟨hv, hbelow⟩ := Json.forall_mem_reached.mp h
    obtain ⟨l, hl⟩ := hasLayer_iff_exists.mp (isEntry_and_isWritten_iff.mp hv).1.1
    rw [node_eq_of_layer hl] at hnode
    refine .entry ?_ ?_ (parent?_of_mem_children hlinks)
    · rw [Spot.layer, hnode]
      exact writes_of_layer hl
    · refine forall₂_children hlinks (congrArg Node.children hnode) fun e he i ↦ ?_
      exact ih e he (hbelow e he) hlinks rfl

theorem Image.kind {kind : NodeKind} {e : Json} {s : Spot} (h : Image (some kind) e s) :
    s.kind = kind := by
  obtain ⟨hwrites, -, -⟩ := h
  exact hwrites.kind

end Import

/-! ## Documents -/

namespace Document

open Import

/-- The id of the root that an export asks for. -/
def rootId (v : Json) : String := v.textAt "id" "0:0"

/-- What an export is: an object with a list of pages, such that everything reached from them is an
entry, and the ids of all entries and of the root are different texts. -/
structure IsExport (v : Json) (pages : List Json) : Prop where
  /-- It is an object. -/
  object : ∃ entries, v = .object entries
  /-- It has a list of pages. -/
  list : v.get? "pages" = some (.array pages)
  /-- Everything that is reached is an entry. -/
  entries : ∀ e ∈ pages.flatMap Json.reached, e.IsEntry
  /-- No two ids are the same text. -/
  ids : (rootId v :: (pages.flatMap Json.reached).map idText).Nodup

/-- What becomes a text in the document of an export can be written. -/
structure IsWritten (v : Json) (pages : List Json) : Prop where
  /-- The id of the root. -/
  id : ∀ w ∈ v.get? "id", w.IsWritable
  /-- Its name. -/
  name : ∀ w ∈ v.get? "name", w.IsWritable
  /-- What becomes a text in the layers of its entries. -/
  entries : ∀ e ∈ pages.flatMap Json.reached, e.IsWritten

/-- The document is what an export with some pages writes down. -/
structure Rebuilds (d : Document) (v : Json) (pages : List Json) : Prop where
  /-- The root is a document with the id and the name of the export. -/
  root : d.root.kind = .document ∧ v.textAt? "id" "0:0" = some d.root.id ∧
    v.textAt? "name" "" = some d.root.name
  /-- Its children are the images of the pages, in order. -/
  images : List.Forall₂ (Image (some .page)) pages d.root.children
  /-- They are pages, whatever type they name. -/
  kinds : ∀ p ∈ d.root.children, p.kind = .page
  /-- The root is their parent. -/
  parent : ∀ p ∈ d.root.children, p.parent? = some d.root
  /-- A text finds the one node that has it as its id, and nothing if there is none. -/
  get : ∀ id s, d.get? id = some s ↔ d.Has s ∧ s.id = id

theorem Labelled.get?_eq_some_iff {d : Document} (hd : d.Labelled) (hindex : d.reindex = d)
    {id : String} {s : Spot} : d.get? id = some s ↔ d.Has s ∧ s.id = id := by
  have hmem {t : Spot} : t ∈ d.root.subtree ↔ d.Has t := hd.tree.mem_subtree_iff (.refl _)
  have hat {t : Spot} (ht : d.Has t) : d.scene.at? t.place = some t := by
    obtain ⟨hstands, hscene⟩ := hd.tree.stands_and_scene ht
    rw [Spot.Stands, hscene] at hstands
    exact hstands
  rw [← hindex, get?]
  constructor
  · intro h
    obtain ⟨e, hfind, h⟩ := Option.bind_eq_some_iff.mp h
    obtain ⟨t, ht, rfl⟩ := List.mem_map.mp (List.mem_reverse.mp (List.mem_of_find?_eq_some hfind))
    obtain rfl := Option.some.inj ((hat (hmem.mp ht)).symm.trans h)
    exact ⟨hmem.mp ht, by simpa using List.find?_some hfind⟩
  · rintro ⟨hs, rfl⟩
    have hentry : (s.id, s.place) ∈ d.reindex.index.reverse :=
      List.mem_reverse.mpr (List.mem_map_of_mem (hmem.mpr hs))
    obtain ⟨e, hfind⟩ := Option.isSome_iff_exists.mp <|
      List.find?_isSome (p := fun e ↦ e.1 == s.id) |>.mpr
        ⟨(s.id, s.place), hentry, beq_self_eq_true s.id⟩
    obtain ⟨t, ht, rfl⟩ := List.mem_map.mp (List.mem_reverse.mp (List.mem_of_find?_eq_some hfind))
    obtain rfl := hd.eq_of_id (hmem.mp ht) hs (by simpa using List.find?_some hfind)
    rw [hfind]
    exact hat hs

variable {v : Json} {pages : List Json}

/-- The document of an export with an id and a name. -/
def ofPages (id name : String) (pages : List Json) : Document :=
  ofRoot ⟨{ id, kind := .document, name }, nodes (some .page) pages⟩

/-- An import succeeds exactly on exports that can be written, and gives the tree of their pages. -/
theorem ofExport_eq_ok_iff {d : Document} :
    ofExport v = .ok d ↔ ∃ pages id name, IsExport v pages ∧ IsWritten v pages ∧
      v.textAt? "id" "0:0" = some id ∧ v.textAt? "name" "" = some name ∧
        d = ofPages id name pages := by
  rw [ofExport_eq_ok_iff_checked]
  constructor
  · rintro ⟨pages, id, name, after, hpages, hid, hname, hafter, rfl⟩
    obtain ⟨hentries, hids⟩ := checkEntries_reached_iff.mp ⟨after, hafter⟩
    have hroot : rootId v = id := by rw [rootId, Json.textAt, hid, Option.getD_some]
    refine ⟨pages, id, name, ⟨?_, hpages, fun e he ↦ (hentries e he).1, hroot ▸ hids⟩,
      ⟨Json.textAt?_isSome_iff.mp (Option.isSome_of_eq_some hid),
        Json.textAt?_isSome_iff.mp (Option.isSome_of_eq_some hname), fun e he ↦ (hentries e he).2⟩,
      hid, hname, rfl⟩
    cases v with
    | object entries => exact ⟨entries, rfl⟩
    | _ => cases hpages
  · rintro ⟨pages, id, name, h, hwritten, hid, hname, rfl⟩
    have hroot : rootId v = id := by rw [rootId, Json.textAt, hid, Option.getD_some]
    obtain ⟨after, hafter⟩ := checkEntries_reached_iff.mpr
      ⟨fun e he ↦ ⟨h.entries e he, hwritten.entries e he⟩, hroot ▸ h.ids⟩
    exact ⟨pages, id, name, after, h.list, hid, hname, hafter, rfl⟩

private theorem rebuilds_ofPages {id name : String} (h : IsExport v pages)
    (hwritten : IsWritten v pages)
    (hid : v.textAt? "id" "0:0" = some id) (hname : v.textAt? "name" "" = some name)
    (hd : (ofPages id name pages).Labelled) : (ofPages id name pages).Rebuilds v pages := by
  have hlinks : (ofPages id name pages).root.scene.links = {} := rfl
  have himages : List.Forall₂ (Image (some .page)) pages (ofPages id name pages).root.children :=
    forall₂_children hlinks rfl fun e he i ↦ image_node e (fun e' he' ↦ by
      have hreached := List.mem_flatMap.mpr ⟨e, he, he'⟩
      exact ⟨h.entries e' hreached, hwritten.entries e' hreached⟩) hlinks rfl
  refine ⟨⟨rfl, hid, hname⟩, himages, fun p hp ↦ ?_, parent?_of_mem_children hlinks,
    fun id s ↦ hd.get?_eq_some_iff rfl⟩
  obtain ⟨i, hi, rfl⟩ := List.mem_iff_getElem.mp hp
  exact (himages.get (himages.length_eq.symm ▸ hi) hi).kind

/-- **Exactly the well-formed exports that can be written are accepted, and their trees are
rebuilt**: an import succeeds on a value if and only if everything reached from its pages is an
entry, all ids are different texts and no integer in what becomes a text has too many digits; and
what it gives has the images of the pages as its pages, and of every entry's children as the
children of its node. -/
theorem ofExport_isOk_iff_and_rebuilds (v : Json) :
    ((∃ d, ofExport v = .ok d) ↔ ∃ pages, IsExport v pages ∧ IsWritten v pages) ∧
      ∀ d, ofExport v = .ok d →
        ∃ pages, IsExport v pages ∧ IsWritten v pages ∧ d.Rebuilds v pages := by
  refine ⟨⟨?_, ?_⟩, ?_⟩
  · rintro ⟨d, hd⟩
    obtain ⟨pages, id, name, h, hwritten, -⟩ := ofExport_eq_ok_iff.mp hd
    exact ⟨pages, h, hwritten⟩
  · rintro ⟨pages, h, hwritten⟩
    obtain ⟨id, hid⟩ := Option.isSome_iff_exists.mp (Json.textAt?_isSome_iff.mpr hwritten.id)
    obtain ⟨name, hname⟩ := Option.isSome_iff_exists.mp (Json.textAt?_isSome_iff.mpr hwritten.name)
    exact ⟨_, ofExport_eq_ok_iff.mpr ⟨pages, id, name, h, hwritten, hid, hname, rfl⟩⟩
  · intro d hd
    obtain ⟨pages, id, name, h, hwritten, hid, hname, rfl⟩ := ofExport_eq_ok_iff.mp hd
    exact ⟨pages, h, hwritten, rebuilds_ofPages h hwritten hid hname (labelled_of_ofExport hd)⟩

/-- The export of the small document. -/
theorem ofExport_isOk_iff_and_rebuilds_cards :
    ofExport .cards = .ok .cards ∧
      ∃ pages, IsExport .cards pages ∧ IsWritten .cards pages ∧
        Document.cards.Rebuilds .cards pages :=
  have hcards : ofExport .cards = .ok .cards := (ofExport_eq_checked rfl).trans rfl
  ⟨hcards, (ofExport_isOk_iff_and_rebuilds .cards).2 .cards hcards⟩

/-- An export of one page that has an integer as its name. -/
def numbered (n : Int) : Json :=
  .object [("pages", .array [.object [("id", .string "a"), ("name", .int n)]])]

private theorem isExport_numbered (n : Int) : ∃ pages, IsExport (numbered n) pages := by
  have hreached : [Json.object [("id", .string "a"), ("name", .int n)]].flatMap Json.reached =
      [.object [("id", .string "a"), ("name", .int n)]] := by
    rw [List.flatMap_singleton, Json.reached_eq]
    rfl
  refine ⟨_, ⟨_, rfl⟩, rfl, ?_, ?_⟩
  · rw [hreached, List.forall_mem_singleton]
    exact ⟨⟨_, rfl⟩, rfl, by simp [Json.get?, Json.getEntry?], nofun, nofun⟩
  · rw [hreached]
    exact (by decide : ["0:0", "a"].Nodup)

private theorem ofExport_numbered {n : Int} (h : 10 ^ digitLimit ≤ n.natAbs) :
    ofExport (numbered n) = .error .unwritable := by
  have hshown : (Json.int n).shown? = none := by
    refine Option.not_isSome_iff_eq_none.mp fun hsome ↦ ?_
    exact Nat.not_lt.mpr h (Json.isWritable_int.mp (Json.shown?_isSome_iff (.int n) |>.mp hsome))
  have hlayer : layer none (.object [("id", .string "a"), ("name", .int n)]) =
      .error .unwritable := by
    simp [layer, text, textAt, hshown, Json.get?, Json.getEntry?, Json.asText?, bind, Except.bind]
  obtain ⟨below, hlevels⟩ :=
    exists_flatten_levels_cons (.object [("id", .string "a"), ("name", .int n)]) []
  have hid : textAt (numbered n) "id" "0:0" = .ok "0:0" := rfl
  have hname : textAt (numbered n) "name" "" = .ok "" := rfl
  refine (ofExport_eq_checked rfl).trans ?_
  rw [checked, hid, hname]
  dsimp only [bind, Except.bind]
  rw [hlevels, checkEntries, checkEntry, hlayer]
  rfl

/-- **Not every well-formed export is accepted**: an integer with one digit too many is no name. -/
theorem ofExport_fails_on_overlong_name :
    (∃ pages, IsExport (numbered (10 ^ digitLimit : Nat)) pages) ∧
      ofExport (numbered (10 ^ digitLimit : Nat)) = .error .unwritable :=
  ⟨isExport_numbered _, ofExport_numbered (Nat.le_of_eq (Int.natAbs_natCast _).symm)⟩

end Document

end SceneSearch
