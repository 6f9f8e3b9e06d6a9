import SceneSearch.Proofs.Scene.Growth
import SceneSearch.Scene.Import

/-!
# The queue of an import

An import takes entries from a queue, checks each of them against the ids before it, and lets the
tree grow node by node. Here the same is said without a queue. `levels` lists the entries level by
level, and `checkEntries` checks a list of them; `node` is the tree that an entry writes down, with
the trees of what it lists as its children. `Document.ofExport_eq_checked` says that an import comes
to this check and to these trees.

Two invariants carry a run. The queue holds a part of one level and then a part of the next one, and
the levels below such a queue follow each other as the queue itself does: `flatten_levels_cons`. And
the tree, once everything that waits is appended as a whole, stays the same when an entry is taken:
`Draft.completed_take`.
-/

namespace SceneSearch

namespace Import

/-! ## Levels -/

/-- Two lists of levels side by side. -/
def beside {α : Type} : List (List α) → List (List α) → List (List α)
  | [], right => right
  | left, [] => left
  | l :: left, r :: right => (l ++ r) :: beside left right

mutual

/-- An entry and what is below it, level by level. -/
def levels : Json → List (List Json)
  | .object entries => [.object entries] :: levelsUnderKey entries
  | v => [[v]]

/-- What is below the first `children` of an object. -/
def levelsUnderKey : List (String × Json) → List (List Json)
  | [] => []
  | (key, v) :: rest => if key = "children" then levelsOfChildren v else levelsUnderKey rest

/-- What a value under `children` holds. -/
def levelsOfChildren : Json → List (List Json)
  | .array items => levelsOfItems items
  -- texts and objects are gone through as well, and what they give is refused as an entry
  | .string s => if s.isEmpty then [] else [characters s]
  | .object entries => if entries.isEmpty then [] else [keys entries]
  | _ => []

/-- What the items of a list hold, side by side. -/
def levelsOfItems : List Json → List (List Json)
  | [] => []
  | v :: rest => beside (levels v) (levelsOfItems rest)

end

/-! ## Checks -/

/-- Checks one entry against the ids before it, and gives its own id. -/
def checkEntry (seen : List String) (v : Json) : Except ImportFault String := do
  let layer ← layer none v
  if seen.contains layer.id then throw (.duplicateId layer.id)
  let _ ← children v
  pure layer.id

/-- Checks entries in order, and gives all ids that were seen. -/
def checkEntries (seen : List String) : List Json → Except ImportFault (List String)
  | [] => .ok seen
  | v :: rest => do
    let id ← checkEntry seen v
    checkEntries (id :: seen) rest

/-! ## Trees -/

mutual

/-- The tree that an entry writes down. An entry that has been checked always has a layer. -/
def node (kind? : Option NodeKind) : Json → Node
  | .object entries =>
    let layer := (layer kind? (.object entries)).toOption.getD { id := "", kind := .other }
    ⟨layer, nodesUnderKey entries⟩
  | _ => ⟨{ id := "", kind := .other }, []⟩

def nodesUnderKey : List (String × Json) → List Node
  | [] => []
  | (key, v) :: rest => if key = "children" then nodesOfChildren v else nodesUnderKey rest

/-- The trees that a value under `children` writes down. -/
def nodesOfChildren : Json → List Node
  | .array items => nodes none items
  | _ => []

def nodes (kind? : Option NodeKind) : List Json → List Node
  | [] => []
  | v :: rest => node kind? v :: nodes kind? rest

end

end Import

namespace Json

/-- A list, or a value that counts as nothing. -/
def IsListOrNothing (v : Json) : Prop := v.isTruthy = true → ∃ items, v = array items

/-- What a value lists under `children`. -/
def listed (v : Json) : List Json :=
  match v.get? "children" with
  | some (array items) => items
  | _ => []

end Json

namespace Import

variable {kind? : Option NodeKind} {seen : List String} {v : Json} {fault : ImportFault}

theorem exists_of_bind_eq_ok {ε α β : Type} {r : Except ε α} {f : α → Except ε β} {b : β}
    (h : r >>= f = .ok b) : ∃ a, r = .ok a ∧ f a = .ok b := by
  cases r with
  | error fault => cases h
  | ok a => exact ⟨a, rfl, h⟩

/-! ## What is below an entry -/

private theorem levelsUnderKey_eq (entries : List (String × Json)) :
    levelsUnderKey entries =
      ((Json.getEntry? "children" entries).map levelsOfChildren).getD [] := by
  induction entries with
  | nil => rfl
  | cons e rest ih =>
    obtain ⟨key, v⟩ := e
    rw [levelsUnderKey, Json.getEntry?]
    by_cases hkey : key = "children"
    · simp [hkey]
    · simpa [hkey, Json.getEntry?] using ih

theorem levels_eq (v : Json) :
    levels v = [v] :: ((v.get? "children").map levelsOfChildren).getD [] := by
  cases v with
  | object entries => rw [levels, levelsUnderKey_eq, Json.get?]
  | _ => rfl

private theorem nodesUnderKey_eq (entries : List (String × Json)) :
    nodesUnderKey entries = nodes none (Json.object entries).listed := by
  induction entries with
  | nil => rfl
  | cons e rest ih =>
    obtain ⟨key, v⟩ := e
    rw [nodesUnderKey]
    by_cases hkey : key = "children"
    · rw [if_pos hkey]
      cases v <;> simp [hkey, Json.listed, Json.get?, Json.getEntry?, nodesOfChildren, nodes]
    · rw [if_neg hkey, ih]
      simp [hkey, Json.listed, Json.get?, Json.getEntry?]

theorem node_eq_of_layer {l : Layer} (h : layer kind? v = .ok l) :
    node kind? v = ⟨l, nodes none v.listed⟩ := by
  cases v with
  | object entries =>
    rw [node, h, nodesUnderKey_eq]
    rfl
  | _ => cases h

theorem nodes_eq_map (kind? : Option NodeKind) (items : List Json) :
    nodes kind? items = items.map (node kind?) := by
  induction items with
  | nil => rfl
  | cons v rest ih => rw [nodes, ih, List.map_cons]

/-! ## Levels of a queue -/

theorem beside_nil {α : Type} (left : List (List α)) : beside left [] = left := by
  cases left <;> rfl

private theorem beside_assoc {α : Type} (a b c : List (List α)) :
    beside (beside a b) c = beside a (beside b c) := by
  induction a generalizing b c with
  | nil => rfl
  | cons l a ih =>
    cases b with
    | nil => rw [beside_nil, beside]
    | cons r b =>
      cases c with
      | nil => rw [beside_nil, beside_nil]
      | cons s c => simp only [beside, ih, List.append_assoc]

/-- To go through levels side by side is to go through one level and to change sides. -/
theorem flatten_beside_cons {α : Type} (l : List α) : ∀ left right : List (List α),
    (beside (l :: left) right).flatten = l ++ (beside right left).flatten
  | _, [] => rfl
  | left, r :: right => by
    rw [beside, List.flatten_cons, List.append_assoc, flatten_beside_cons r right left]
termination_by left right => left.length + right.length

theorem levelsOfItems_append (first second : List Json) :
    levelsOfItems (first ++ second) = beside (levelsOfItems first) (levelsOfItems second) := by
  induction first with
  | nil => rfl
  | cons v rest ih => rw [List.cons_append, levelsOfItems, levelsOfItems, ih, beside_assoc]

private theorem levelsOfItems_texts {α : Type} (text : α → String) {items : List α}
    (h : items ≠ []) :
    levelsOfItems (items.map fun a ↦ .string (text a)) = [items.map fun a ↦ .string (text a)] := by
  induction items with
  | nil => exact absurd rfl h
  | cons a rest ih =>
    rw [List.map_cons, levelsOfItems, levels]
    · cases rest with
      | nil => rfl
      | cons b rest => rw [ih (List.cons_ne_nil b rest)]; rfl
    · nofun

private theorem levelsOfChildren_of_iterate {below : List Json} (h : iterate v = .ok below) :
    levelsOfChildren v = levelsOfItems below := by
  cases v with
  | array items =>
    obtain rfl := Except.ok.inj h
    rfl
  | string s =>
    obtain rfl := Except.ok.inj h
    rw [levelsOfChildren]
    split
    · rename_i hs
      obtain rfl : s = "" := by simpa using hs
      rfl
    · rename_i hs
      rw [characters, levelsOfItems_texts _ (by simpa using hs)]
  | object entries =>
    obtain rfl := Except.ok.inj h
    rw [levelsOfChildren]
    split
    · rename_i hentries
      obtain rfl : entries = [] := by simpa using hentries
      rfl
    · rename_i hentries
      rw [keys, levelsOfItems_texts _ (by simpa using hentries)]
  | _ => cases h

private theorem levelsOfChildren_of_not_isTruthy (h : ¬v.isTruthy) : levelsOfChildren v = [] := by
  cases v with
  | array items =>
    obtain rfl : items = [] := by simpa [Json.isTruthy] using h
    rfl
  | string s =>
    obtain rfl : s = "" := by simpa [Json.isTruthy] using h
    rfl
  | object entries =>
    obtain rfl : entries = [] := by simpa [Json.isTruthy] using h
    rfl
  | _ => rfl

/-- The levels of an entry are the entry and the levels of what it lists. -/
theorem levels_of_children {below : List Json} (h : children v = .ok below) :
    levels v = [v] :: levelsOfItems below := by
  rw [levels_eq]
  rw [children, truthy?] at h
  cases hvalue : v.get? "children" with
  | none =>
    rw [hvalue] at h
    obtain rfl := Except.ok.inj h
    rfl
  | some w =>
    rw [hvalue, Option.filter_some] at h
    rw [Option.map_some, Option.getD_some]
    by_cases hw : w.isTruthy
    · rw [if_pos hw] at h
      rw [levelsOfChildren_of_iterate h]
    · rw [if_neg hw] at h
      obtain rfl := Except.ok.inj h
      rw [levelsOfChildren_of_not_isTruthy hw]
      rfl

/-- **The queue keeps to the levels**: behind an entry come the entries behind it, and then what it
lists. -/
theorem flatten_levels_cons {below : List Json} (h : children v = .ok below) (rest : List Json) :
    (levelsOfItems (v :: rest)).flatten = v :: (levelsOfItems (rest ++ below)).flatten := by
  rw [levelsOfItems, levels_of_children h, flatten_beside_cons, levelsOfItems_append,
    List.singleton_append]

theorem exists_flatten_levels_cons (v : Json) (rest : List Json) :
    ∃ below, (levelsOfItems (v :: rest)).flatten = v :: below := by
  rw [levelsOfItems, levels_eq, flatten_beside_cons]
  exact ⟨_, rfl⟩

private theorem flatten_beside_perm {α : Type} (left right : List (List α)) :
    (beside left right).flatten.Perm (left.flatten ++ right.flatten) := by
  fun_induction beside left right with
  | case1 right => exact .refl _
  | case2 left => rw [List.flatten_nil, List.append_nil]
  | case3 l left r right ih =>
    -- the rest of the left side moves past the first level of the right side
    have hmove : (r ++ (left.flatten ++ right.flatten)).Perm
        (left.flatten ++ (r ++ right.flatten)) := by
      rw [← List.append_assoc, ← List.append_assoc]
      exact List.perm_append_comm.append_right _
    rw [List.flatten_cons, List.flatten_cons, List.flatten_cons, List.append_assoc,
      List.append_assoc]
    exact ((ih.append_left r).trans hmove).append_left l

theorem flatten_levelsOfItems_perm (items : List Json) :
    (levelsOfItems items).flatten.Perm (items.flatMap fun v ↦ (levels v).flatten) := by
  induction items with
  | nil => exact .refl _
  | cons v rest ih =>
    rw [levelsOfItems, List.flatMap_cons]
    exact (flatten_beside_perm _ _).trans (ih.append_left _)

theorem mem_flatten_levelsOfItems {items : List Json} (h : v ∈ items) :
    v ∈ (levelsOfItems items).flatten := by
  refine (flatten_levelsOfItems_perm items).mem_iff.mpr (List.mem_flatMap.mpr ⟨v, h, ?_⟩)
  rw [levels_eq]
  exact List.mem_cons_self

/-! ## Entries that passed -/

theorem layer_eq_map (kind? : Option NodeKind) (v : Json) :
    layer kind? v = (layer none v).map fun l ↦ { l with kind := kind?.getD l.kind } := by
  cases hid : v.get? "id" with
  | none => simp only [layer, hid]; rfl
  | some id =>
    simp only [layer, hid]
    cases text id with
    | error fault => rfl
    | ok id =>
      cases textAt v "name" "" with
      | error fault => rfl
      | ok name =>
        dsimp only [bind, Except.bind]
        cases coordinate v "x" <;> try rfl
        cases coordinate v "y" <;> try rfl
        cases coordinate v "width" <;> try rfl
        cases coordinate v "height" <;> try rfl
        cases fills v <;> rfl

theorem get?_id_of_layer {l : Layer} (h : layer kind? v = .ok l) : v.get? "id" ≠ none := by
  intro hid
  rw [layer, hid] at h
  cases h

theorem checkEntry_eq_ok_iff {id : String} :
    checkEntry seen v = .ok id ↔
      ∃ l below, layer none v = .ok l ∧ l.id ∉ seen ∧ children v = .ok below ∧ l.id = id := by
  rw [checkEntry]
  cases layer none v with
  | error fault => simp [bind, Except.bind]
  | ok l =>
    by_cases hseen : l.id ∈ seen
    · simp [hseen, bind, Except.bind, throw, throwThe, MonadExceptOf.throw]
    · cases children v <;> simp [hseen, bind, Except.bind, pure, Except.pure]

private theorem get?_id_of_checkEntries {entries : List Json} {after : List String}
    (h : checkEntries seen entries = .ok after) : ∀ e ∈ entries, e.get? "id" ≠ none := by
  induction entries generalizing seen with
  | nil => nofun
  | cons v rest ih =>
    obtain ⟨id, hv, hrest⟩ := exists_of_bind_eq_ok h
    obtain ⟨l, below, hl, -⟩ := checkEntry_eq_ok_iff.mp hv
    exact List.forall_mem_cons.mpr ⟨get?_id_of_layer hl, ih hrest⟩

theorem children_eq_ok_listed (h : ∀ w ∈ v.get? "children", w.IsListOrNothing) :
    children v = .ok v.listed := by
  rw [children, truthy?, Json.listed]
  cases hvalue : v.get? "children" with
  | none => rfl
  | some w =>
    rw [Option.filter_some]
    by_cases hw : w.isTruthy
    · obtain ⟨items, rfl⟩ := h w hvalue hw
      rw [if_pos hw]
      rfl
    · rw [if_neg hw]
      cases w with
      | array items =>
        obtain rfl : items = [] := by simpa [Json.isTruthy] using hw
        rfl
      | _ => rfl

theorem isListOrNothing_of_children {below : List Json} (h : children v = .ok below)
    (hid : ∀ e ∈ below, e.get? "id" ≠ none) : ∀ w ∈ v.get? "children", w.IsListOrNothing := by
  intro w hvalue hw
  rw [children, truthy?, hvalue, Option.filter_some, if_pos hw] at h
  cases w with
  | array items => exact ⟨items, rfl⟩
  | string s =>
    obtain rfl := Except.ok.inj h
    have hnil : characters s = [] := List.eq_nil_iff_forall_not_mem.mpr fun e he ↦ hid e he <| by
      obtain ⟨c, -, rfl⟩ := List.mem_map.mp he
      rfl
    simp_all [characters, Json.isTruthy]
  | object entries =>
    obtain rfl := Except.ok.inj h
    have hnil : keys entries = [] := List.eq_nil_iff_forall_not_mem.mpr fun e he ↦ hid e he <| by
      obtain ⟨entry, -, rfl⟩ := List.mem_map.mp he
      rfl
    simp_all [keys, Json.isTruthy]
  | _ => cases h

theorem listed_of_children {below : List Json} (h : children v = .ok below)
    (hid : ∀ e ∈ below, e.get? "id" ≠ none) : v.listed = below :=
  Except.ok.inj <| (children_eq_ok_listed (isListOrNothing_of_children h hid)).symm.trans h

/-! ## Runs -/

namespace Draft

variable {d next : Draft} {w : Waiting} {rest : List Waiting}

/-- What waits, level by level. -/
def levels (d : Draft) : List Json := (levelsOfItems (d.waiting.map Waiting.entry)).flatten

/-- A tree with all that waits, each entry as a whole. -/
def appendAll (waiting : List Waiting) (tree : Node) : Node :=
  waiting.foldl (fun t w ↦ t.append w.parent [node w.kind? w.entry]) tree

/-- The tree that a draft is to become. -/
def completed (d : Draft) : Node := appendAll d.waiting d.tree

/-- Every entry that waits has its parent in the tree. -/
def Rooted (d : Draft) : Prop := ∀ w ∈ d.waiting, (d.tree.at? w.parent).isSome

theorem take_eq_ok_iff :
    d.take w rest = .ok next ↔ ∃ l below, layer none w.entry = .ok l ∧ l.id ∉ d.seen ∧
      children w.entry = .ok below ∧ next = {
        tree := d.tree.append w.parent [⟨{ l with kind := w.kind?.getD l.kind }, []⟩]
        seen := l.id :: d.seen
        waiting := rest ++ below.map fun entry ↦ ⟨d.tree.nextAddress w.parent, entry, false⟩ } := by
  rw [take, layer_eq_map]
  cases layer none w.entry with
  | error fault => simp [bind, Except.bind, Except.map]
  | ok l =>
    by_cases hseen : l.id ∈ d.seen
    · simp [hseen, bind, Except.bind, Except.map, throw, throwThe, MonadExceptOf.throw]
    · cases children w.entry <;>
        simp [hseen, bind, Except.bind, Except.map, pure, Except.pure, eq_comm]

theorem take_eq_error_iff :
    d.take w rest = .error fault ↔ checkEntry d.seen w.entry = .error fault := by
  rw [take, checkEntry, layer_eq_map]
  cases layer none w.entry with
  | error cause => simp [bind, Except.bind, Except.map]
  | ok l =>
    by_cases hseen : l.id ∈ d.seen
    · simp [hseen, bind, Except.bind, Except.map, throw, throwThe, MonadExceptOf.throw]
    · cases children w.entry <;>
        simp [hseen, bind, Except.bind, Except.map, pure, Except.pure]

private theorem rooted_start (root : Layer) (pages : List Json) : (start root pages).Rooted := by
  intro w hw
  obtain ⟨page, -, rfl⟩ := List.mem_map.mp hw
  rfl

theorem Rooted.take (hd : d.Rooted) (hwaiting : d.waiting = w :: rest)
    (h : d.take w rest = .ok next) : next.Rooted := by
  obtain ⟨l, below, -, -, -, rfl⟩ := take_eq_ok_iff.mp h
  rw [Rooted, hwaiting, List.forall_mem_cons] at hd
  intro w' hw'
  rcases List.mem_append.mp hw' with hw' | hw'
  · exact Node.isSome_at?_append (hd.2 w' hw')
  · obtain ⟨entry, -, rfl⟩ := List.mem_map.mp hw'
    exact Node.isSome_at?_nextAddress hd.1 _

/-- What is appended to a node goes past all that is appended to other nodes. -/
theorem appendAll_append {tree : Node} {a : List Nat} {xs : List Node} (ha : (tree.at? a).isSome)
    (h : ∀ w ∈ rest, w.parent ≠ a ∧ (tree.at? w.parent).isSome) :
    appendAll rest (tree.append a xs) = (appendAll rest tree).append a xs := by
  induction rest generalizing tree with
  | nil => rfl
  | cons w rest ih =>
    obtain ⟨⟨hne, hw⟩, hrest⟩ := List.forall_mem_cons.mp h
    simp only [appendAll, List.foldl_cons] at ih ⊢
    rw [Node.append_comm hne.symm ha hw]
    exact ih (Node.isSome_at?_append ha) fun w' hw' ↦
      ⟨(hrest w' hw').1, Node.isSome_at?_append (hrest w' hw').2⟩

theorem appendAll_siblings (tree : Node) (a : List Nat) (below : List Json) (isPage : Bool) :
    appendAll (below.map fun entry ↦ ⟨a, entry, isPage⟩) tree =
      tree.append a (nodes (if isPage then some .page else none) below) := by
  induction below generalizing tree with
  | nil => exact (Node.append_nil tree a).symm
  | cons v rest ih =>
    rw [List.map_cons, appendAll, List.foldl_cons]
    refine (ih _).trans ?_
    rw [Node.append_append, nodes]
    rfl

/-- **Taking an entry leaves the tree to come as it is**, where nothing but entries is listed. -/
theorem completed_take (hd : d.Rooted) (hwaiting : d.waiting = w :: rest)
    (h : d.take w rest = .ok next) (hid : ∀ v ∈ next.levels, v.get? "id" ≠ none) :
    next.completed = d.completed := by
  obtain ⟨l, below, hl, -, hbelow, rfl⟩ := take_eq_ok_iff.mp h
  rw [Rooted, hwaiting, List.forall_mem_cons] at hd
  obtain ⟨hw, hrest⟩ := hd
  set address := d.tree.nextAddress w.parent with haddress
  have hlisted : w.entry.listed = below := listed_of_children hbelow fun e he ↦ by
    refine hid e (mem_flatten_levelsOfItems ?_)
    rw [List.map_append, List.map_map]
    exact List.mem_append_right _ (List.mem_map.mpr ⟨e, he, rfl⟩)
  generalize hlayer : { l with kind := w.kind?.getD l.kind } = layer
  have hnode : node w.kind? w.entry = ⟨layer, nodes none below⟩ := by
    rw [← hlisted, ← hlayer]
    exact node_eq_of_layer (by rw [layer_eq_map, hl]; rfl)
  have hparents : ∀ w' ∈ rest, w'.parent ≠ address ∧
      ((d.tree.append w.parent [⟨layer, []⟩]).at? w'.parent).isSome := fun w' hw' ↦ by
    refine ⟨fun heq ↦ ?_, Node.isSome_at?_append (hrest w' hw')⟩
    have hsome := hrest w' hw'
    rw [heq, haddress, Node.at?_nextAddress hw] at hsome
    cases hsome
  rw [completed, completed, hwaiting, appendAll, List.foldl_append]
  refine (appendAll_siblings _ address below false).trans ?_
  refine (appendAll_append (Node.isSome_at?_nextAddress hw _) hparents).symm.trans ?_
  rw [Node.append_nextAddress hw, List.nil_append, appendAll, appendAll, List.foldl_cons, hnode]
  rfl

/-- **A run comes to the check of all levels**, and builds every entry that waits as a whole. -/
theorem build_eq (d : Draft) (hd : d.Rooted) :
    d.build = (checkEntries d.seen d.levels).map fun _ ↦ d.completed := by
  fun_induction build d with
  | case1 d hwaiting =>
    rw [completed, levels, hwaiting]
    rfl
  | case2 d w rest hwaiting fault hnext =>
    obtain ⟨behind, hlevels⟩ : ∃ behind, d.levels = w.entry :: behind := by
      rw [levels, hwaiting]
      exact exists_flatten_levels_cons _ _
    rw [hlevels, checkEntries, take_eq_error_iff.mp hnext]
    rfl
  | case3 d w rest hwaiting next hnext ih =>
    obtain ⟨l, below, hl, hseen, hbelow, heq⟩ := take_eq_ok_iff.mp hnext
    have hlevels : d.levels = w.entry :: next.levels := by
      rw [levels, hwaiting, List.map_cons, flatten_levels_cons hbelow, levels, heq, List.map_append,
        List.map_map]
      simp [Function.comp_def]
    have hids : next.seen = l.id :: d.seen := by rw [heq]
    rw [ih (hd.take hwaiting hnext), hlevels, checkEntries,
      checkEntry_eq_ok_iff.mpr ⟨l, below, hl, hseen, hbelow, rfl⟩, hids]
    dsimp only [bind, Except.bind]
    cases hcheck : checkEntries (l.id :: d.seen) next.levels with
    | error fault => rfl
    | ok after => rw [completed_take hd hwaiting hnext (get?_id_of_checkEntries hcheck)]

end Draft

end Import

/-! ## Whole exports -/

open Import

/-- The document that a value with some pages writes down: its entries are checked level by level,
and then every page is built as a whole. -/
def Document.checked (v : Json) (pages : List Json) : Except ImportFault Document := do
  let id ← textAt v "id" "0:0"
  let name ← textAt v "name" ""
  let _ ← checkEntries [id] (levelsOfItems pages).flatten
  pure (ofRoot ⟨{ id, kind := .document, name }, nodes (some .page) pages⟩)

theorem Import.Draft.build_start (root : Layer) (pages : List Json) :
    (start root pages).build = (checkEntries [root.id] (levelsOfItems pages).flatten).map fun _ ↦
      ⟨root, nodes (some .page) pages⟩ := by
  have hlevels : (start root pages).levels = (levelsOfItems pages).flatten := by
    rw [Draft.levels, start, List.map_map]
    simp [Function.comp_def]
  have hcompleted : (start root pages).completed = ⟨root, nodes (some .page) pages⟩ := by
    rw [completed, start, appendAll_siblings]
    rfl
  rw [build_eq _ (rooted_start root pages), hlevels, hcompleted]
  rfl

namespace Document

variable {v : Json}

/-- **An import without its queue.** -/
theorem ofExport_eq_checked {pages : List Json} (h : v.get? "pages" = some (.array pages)) :
    ofExport v = checked v pages := by
  cases v with
  | object entries =>
    simp only [ofExport, h]
    rw [checked]
    cases textAt (.object entries) "id" "0:0" with
    | error fault => rfl
    | ok id =>
      cases textAt (.object entries) "name" "" with
      | error fault => rfl
      | ok name =>
        dsimp only [bind, Except.bind]
        rw [Draft.build_start]
        cases checkEntries [id] (levelsOfItems pages).flatten <;> rfl
  | _ => cases h

theorem ofExport_eq_notAnExport (h : ∀ pages, v.get? "pages" ≠ some (.array pages)) :
    ofExport v = .error .notAnExport := by
  rw [ofExport]
  exact fun _ pages _ hpages ↦ h pages hpages

end Document

end SceneSearch
