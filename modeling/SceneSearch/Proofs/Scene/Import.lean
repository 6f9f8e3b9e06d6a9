import Mathlib.Data.List.Perm.Basic
import SceneSearch.Proofs.Scene.Orderly
import SceneSearch.Proofs.Scene.Queue

/-!
# Documents from exports

An import checks entries level by level, since that is the order in which a bad one is reported, and
the tree that it builds is read from top to bottom. `Json.reached` lists the entries in this second
order. Among entries that pass their checks the levels hold what is reached, in another order, and
the ids of a tree are those of what is reached. So what an import accepts has every id once, and as
no link of it was changed, it is a tree: `Document.labelled_of_ofExport`.

Kinds are not checked. An entry below a page may itself be called a page, or a document, so that
what an import gives are labelled documents and not always orderly ones.
-/

namespace SceneSearch

/-! ## Ids of trees -/

namespace Node

mutual

/-- The ids at and below a node, in document order. -/
def ids : Node → List String
  | ⟨layer, children⟩ => layer.id :: totalIds children

/-- The ids at and below some nodes, in document order. -/
def totalIds : List Node → List String
  | [] => []
  | c :: rest => c.ids ++ totalIds rest

end

end Node

namespace Spot

mutual

private theorem map_id_treeRecords (scene : Scene) (tree : Nat) (above : List Crumb) :
    ∀ n : Node, (treeRecords Exposure.everything (fun a ↦ some [a]) scene tree above n).map id =
      n.ids
  | ⟨layer, children⟩ => by
    rw [treeRecords, Node.ids, List.map_append, map_id_childRecords]
    rfl

theorem map_id_childRecords (scene : Scene) (tree : Nat) (above : List Crumb) (parent : Node) :
    ∀ (position : Nat) (nodes : List Node),
      (childRecords Exposure.everything (fun a ↦ some [a]) scene tree above parent position
        nodes).map id = Node.totalIds nodes
  | _, [] => rfl
  | position, c :: rest => by
    rw [childRecords, Node.totalIds, List.map_append, map_id_childRecords, Exposure.everything,
      if_pos rfl]
    rw [map_id_treeRecords]

end

private theorem map_id_preorder (s : Spot) : s.preorder.map id = s.node.ids :=
  map_id_treeRecords s.scene s.tree s.above s.node

end Spot

namespace Json

/-! ## What is reached -/

theorem sizeOf_lt_of_mem_listed {v e : Json} (h : e ∈ v.listed) : sizeOf e < sizeOf v := by
  rw [listed] at h
  split at h
  · rename_i items hitems
    have hlist := sizeOf_lt_of_get? hitems
    have hmem := List.sizeOf_lt_of_mem h
    rw [array.sizeOf_spec] at hlist
    omega
  · cases h

/-- A value and everything that is reached from it through `children`. -/
def reached (v : Json) : List Json :=
  v :: v.listed.attach.flatMap fun e ↦ reached e.1
termination_by sizeOf v
decreasing_by exact sizeOf_lt_of_mem_listed e.2

theorem reached_eq (v : Json) : v.reached = v :: v.listed.flatMap reached := by
  rw [reached, List.flatMap_subtype (fun _ _ ↦ rfl), List.unattach_attach]

/-- A property of all values follows for a value from the entries that it lists. -/
theorem inductionListed {motive : Json → Prop}
    (step : ∀ v, (∀ e ∈ v.listed, motive e) → motive v) (v : Json) : motive v :=
  step v fun e he ↦
    have := sizeOf_lt_of_mem_listed he
    inductionListed step e
termination_by sizeOf v

theorem forall_mem_reached {p : Json → Prop} {v : Json} :
    (∀ e ∈ v.reached, p e) ↔ p v ∧ ∀ c ∈ v.listed, ∀ e ∈ c.reached, p e := by
  rw [reached_eq, List.forall_mem_cons]
  simp only [List.mem_flatMap]
  exact and_congr_right fun _ ↦
    ⟨fun h c hc e he ↦ h e ⟨c, hc, he⟩, fun h e ⟨c, hc, he⟩ ↦ h c hc e he⟩

/-! ## Texts under keys -/

/-- The text of the value of a key, or another text if the key is absent. -/
def textAt? (v : Json) (key absent : String) : Option String :=
  match v.get? key with
  | none => some absent
  | some value => value.asText?

/-- The same, where a text that cannot be written is empty. -/
def textAt (v : Json) (key absent : String) : String := (v.textAt? key absent).getD ""

end Json

namespace Import

variable {kind? : Option NodeKind} {seen after : List String} {v : Json} {l : Layer}

theorem textAt_eq_ok_iff {key absent text : String} :
    textAt v key absent = .ok text ↔ v.textAt? key absent = some text := by
  rw [textAt, Json.textAt?]
  cases v.get? key with
  | none => simp
  | some value =>
    dsimp only
    rw [Import.text]
    cases value.asText? <;> simp

/-! ## Entries with a layer -/

/-- The entry writes a layer down. -/
def HasLayer (v : Json) : Prop := ∃ l, layer none v = .ok l

/-- The id of an entry as a text. -/
def idText (v : Json) : String := v.textAt "id" ""

theorem layer_eq_ok_iff : layer kind? v = .ok l ↔ (v.get? "id").isSome ∧
    v.textAt? "id" "" = some l.id ∧ l.kind = kind?.getD (kindNamed ((v.get? "type").getD .null)) ∧
      v.textAt? "name" "" = some l.name ∧
        l.visible = ((v.get? "visible").map Json.isTruthy).getD true ∧
          coordinate v "x" = .ok l.x ∧ coordinate v "y" = .ok l.y ∧
            coordinate v "width" = .ok l.width ∧ coordinate v "height" = .ok l.height ∧
              l.axis = axis? v ∧ fills v = .ok l.fills := by
  obtain ⟨id, kind, name, visible, x, y, width, height, axis, types⟩ := l
  rw [layer]
  cases hid : v.get? "id" with
  | none => simp
  | some value =>
    have htext : v.textAt? "id" "" = value.asText? := by rw [Json.textAt?, hid]
    simp only [← textAt_eq_ok_iff, htext, text]
    rcases value.asText? with _ | idText
    · simp [bind, Except.bind]
    rcases textAt v "name" "" with fault | nameText
    · simp [bind, Except.bind]
    rcases coordinate v "x" with fault | x'
    · simp [bind, Except.bind]
    rcases coordinate v "y" with fault | y'
    · simp [bind, Except.bind]
    rcases coordinate v "width" with fault | width'
    · simp [bind, Except.bind]
    rcases coordinate v "height" with fault | height'
    · simp [bind, Except.bind]
    rcases fills v with fault | types'
    · simp [bind, Except.bind]
    simp [bind, Except.bind, pure, Except.pure, eq_comm]

theorem id_of_layer (h : layer kind? v = .ok l) : l.id = idText v := by
  obtain ⟨-, hid, -⟩ := layer_eq_ok_iff.mp h
  rw [idText, Json.textAt, hid, Option.getD_some]

/-! ## Entries that pass -/

/-- The entry passes its check, apart from its id. -/
def Accepts (v : Json) : Prop := HasLayer v ∧ ∃ below, children v = .ok below

theorem Accepts.get?_id (h : Accepts v) : v.get? "id" ≠ none := get?_id_of_layer h.1.choose_spec

theorem flatten_levels (h : ∀ e ∈ (levels v).flatten, Accepts e) :
    (levels v).flatten = v :: (levelsOfItems v.listed).flatten := by
  obtain ⟨-, below, hbelow⟩ := h v (by rw [levels_eq]; exact List.mem_cons_self)
  rw [levels_of_children hbelow] at h ⊢
  rw [listed_of_children hbelow fun e he ↦ (h e ?_).get?_id]
  · rfl
  · exact List.mem_cons_of_mem v (mem_flatten_levelsOfItems he)

theorem forall_mem_flatten_levelsOfItems {p : Json → Prop} {items : List Json} :
    (∀ e ∈ (levelsOfItems items).flatten, p e) ↔ ∀ c ∈ items, ∀ e ∈ (levels c).flatten, p e := by
  simp only [(flatten_levelsOfItems_perm items).mem_iff, List.mem_flatMap]
  exact ⟨fun h c hc e he ↦ h e ⟨c, hc, he⟩, fun h e ⟨c, hc, he⟩ ↦ h c hc e he⟩

/-- **The levels of good entries hold what is reached from them.** -/
theorem flatten_levels_perm_reached (v : Json) (h : ∀ e ∈ (levels v).flatten, Accepts e) :
    (levels v).flatten.Perm v.reached := by
  induction v using Json.inductionListed with
  | step v ih =>
    have hlevels := flatten_levels h
    rw [hlevels] at h ⊢
    rw [Json.reached_eq]
    refine ((flatten_levelsOfItems_perm _).trans ?_).cons v
    have hbelow := forall_mem_flatten_levelsOfItems.mp (List.forall_mem_cons.mp h).2
    exact List.Perm.flatMap_left _ fun c hc ↦ ih c hc (hbelow c hc)

theorem flatten_levelsOfItems_perm_reached {items : List Json}
    (h : ∀ e ∈ (levelsOfItems items).flatten, Accepts e) :
    (levelsOfItems items).flatten.Perm (items.flatMap Json.reached) :=
  (flatten_levelsOfItems_perm items).trans <| List.Perm.flatMap_left _ fun c hc ↦
    flatten_levels_perm_reached c (forall_mem_flatten_levelsOfItems.mp h c hc)

/-! ## Trees of entries that pass -/

theorem totalIds_eq_flatMap (nodes : List Node) : Node.totalIds nodes = nodes.flatMap Node.ids := by
  induction nodes with
  | nil => rfl
  | cons c rest ih => rw [Node.totalIds, ih, List.flatMap_cons]

theorem hasLayer_iff_exists : HasLayer v ↔ ∃ l, layer kind? v = .ok l := by
  rw [HasLayer, layer_eq_map kind?]
  cases layer none v <;> simp [Except.map]

private theorem ids_node (v : Json) (kind? : Option NodeKind) (h : ∀ e ∈ v.reached, HasLayer e) :
    (node kind? v).ids = v.reached.map idText := by
  induction v using Json.inductionListed generalizing kind? with
  | step v ih =>
    obtain ⟨hv, hbelow⟩ := Json.forall_mem_reached.mp h
    obtain ⟨l, hl⟩ := hasLayer_iff_exists.mp hv
    rw [node_eq_of_layer hl, Node.ids, Json.reached_eq, List.map_cons, id_of_layer hl,
      totalIds_eq_flatMap, nodes_eq_map, List.flatMap_map, List.map_flatMap]
    exact congrArg _ (List.flatMap_congr fun c hc ↦ ih c hc none (hbelow c hc))

private theorem totalIds_nodes {items : List Json}
    (h : ∀ e ∈ items.flatMap Json.reached, HasLayer e) :
    Node.totalIds (nodes kind? items) = (items.flatMap Json.reached).map idText := by
  rw [totalIds_eq_flatMap, nodes_eq_map, List.flatMap_map, List.map_flatMap]
  exact List.flatMap_congr fun c hc ↦
    ids_node c kind? fun e he ↦ h e (List.mem_flatMap.mpr ⟨c, hc, he⟩)

/-! ## Checking -/

private theorem checkEntry_eq_ok_iff_accepts {id : String} :
    checkEntry seen v = .ok id ↔ Accepts v ∧ id = idText v ∧ id ∉ seen := by
  rw [checkEntry_eq_ok_iff]
  constructor
  · rintro ⟨l, below, hl, hnew, hbelow, rfl⟩
    exact ⟨⟨⟨l, hl⟩, below, hbelow⟩, id_of_layer hl, hnew⟩
  · rintro ⟨⟨⟨l, hl⟩, below, hbelow⟩, rfl, hnew⟩
    rw [← id_of_layer hl] at hnew ⊢
    exact ⟨l, below, hl, hnew, hbelow, rfl⟩

/-- Entries are accepted if they write layers down, their children can be gone through, and no id is
repeated. Their ids are added to those that were seen before. -/
theorem checkEntries_eq_ok_iff {entries : List Json} (hseen : seen.Nodup) :
    checkEntries seen entries = .ok after ↔
      (∀ v ∈ entries, Accepts v) ∧ after = (entries.map idText).reverse ++ seen ∧ after.Nodup := by
  induction entries generalizing seen with
  | nil =>
    constructor
    · rintro ⟨⟩
      exact ⟨nofun, rfl, hseen⟩
    · rintro ⟨-, rfl, -⟩
      rfl
  | cons v rest ih =>
    have hafter : ((v :: rest).map idText).reverse ++ seen =
        (rest.map idText).reverse ++ idText v :: seen := by simp
    rw [hafter]
    constructor
    · intro h
      obtain ⟨_, hentry, h⟩ := exists_of_bind_eq_ok h
      obtain ⟨haccepts, rfl, hnew⟩ := checkEntry_eq_ok_iff_accepts.mp hentry
      obtain ⟨hrest, hids, hnodup⟩ := (ih (List.nodup_cons.mpr ⟨hnew, hseen⟩)).mp h
      exact ⟨List.forall_mem_cons.mpr ⟨haccepts, hrest⟩, hids, hnodup⟩
    · rintro ⟨hentries, rfl, hnodup⟩
      obtain ⟨haccepts, hrest⟩ := List.forall_mem_cons.mp hentries
      have hseen' : (idText v :: seen).Nodup := hnodup.of_append_right
      have hentry := checkEntry_eq_ok_iff_accepts.mpr
        ⟨haccepts, rfl, (List.nodup_cons.mp hseen').1⟩
      rw [checkEntries, hentry]
      exact (ih hseen').mpr ⟨hrest, rfl, hnodup⟩

/-- The check of some entries behind one id, in the order in which they stand. -/
theorem checkEntries_isOk_iff {root : String} {entries : List Json} :
    (∃ after, checkEntries [root] entries = .ok after) ↔
      (∀ e ∈ entries, Accepts e) ∧ (root :: entries.map idText).Nodup := by
  have hids : (entries.map idText).reverse ++ [root] = (root :: entries.map idText).reverse := by
    simp
  simp only [checkEntries_eq_ok_iff (List.nodup_singleton root), hids, exists_and_left,
    exists_eq_left, List.nodup_reverse]

end Import

/-! ## Documents -/

open Import

namespace Document

variable {v : Json} {d : Document}

theorem ofExport_eq_ok_iff_checked : ofExport v = .ok d ↔ ∃ pages id name after,
    v.get? "pages" = some (.array pages) ∧ v.textAt? "id" "0:0" = some id ∧
      v.textAt? "name" "" = some name ∧
        checkEntries [id] (levelsOfItems pages).flatten = .ok after ∧
          d = ofRoot ⟨{ id, kind := .document, name }, nodes (some .page) pages⟩ := by
  simp only [← textAt_eq_ok_iff]
  constructor
  · intro h
    by_cases hpages : ∃ pages, v.get? "pages" = some (.array pages)
    · obtain ⟨pages, hpages⟩ := hpages
      rw [ofExport_eq_checked hpages] at h
      obtain ⟨id, hid, h⟩ := exists_of_bind_eq_ok h
      obtain ⟨name, hname, h⟩ := exists_of_bind_eq_ok h
      obtain ⟨after, hafter, h⟩ := exists_of_bind_eq_ok h
      exact ⟨pages, id, name, after, hpages, hid, hname, hafter, (Except.ok.inj h).symm⟩
    · rw [ofExport_eq_notAnExport fun pages h ↦ hpages ⟨pages, h⟩] at h
      cases h
  · rintro ⟨pages, id, name, after, hpages, hid, hname, hafter, rfl⟩
    rw [ofExport_eq_checked hpages, checked, hid, hname]
    dsimp only [bind, Except.bind]
    rw [hafter]
    rfl

/-- **An import gives a labelled document**: every id belongs to one node. -/
theorem labelled_of_ofExport (h : ofExport v = .ok d) : d.Labelled := by
  obtain ⟨pages, id, name, after, -, -, -, hafter, rfl⟩ := ofExport_eq_ok_iff_checked.mp h
  obtain ⟨haccepts, hnodup⟩ := checkEntries_isOk_iff.mp ⟨after, hafter⟩
  have hreached := flatten_levelsOfItems_perm_reached haccepts
  refine labelled_of_links_eq rfl ?_
  rw [Spot.subtree_eq_preorder rfl, Spot.map_id_preorder, Document.root, scene_ofRoot, Node.ids,
    totalIds_nodes fun e he ↦ (haccepts e (hreached.mem_iff.mpr he)).1]
  exact (((hreached.map idText).cons id).nodup_iff).mp hnodup

end Document

/-! ## The small document -/

/-- An export of the small document. -/
def Json.cards : Json :=
  .object [("pages", .array [
    .object [("id", .string "1:1"), ("name", .string "Home"), ("children", .array [
      .object [("id", .string "1:2"), ("type", .string "frame"), ("name", .string "Card"),
        ("children", .array [
          .object [("id", .string "1:3"), ("type", .string "text"), ("name", .string "Title")],
          .object [("id", .string "1:4"), ("type", .string "text"), ("name", .string "Caption"),
            ("visible", .bool false)]])]])]])]

theorem Document.ofExport_cards : ofExport .cards = .ok .cards :=
  (ofExport_eq_checked rfl).trans rfl

end SceneSearch
