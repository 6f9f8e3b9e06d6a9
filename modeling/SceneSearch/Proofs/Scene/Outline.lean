import SceneSearch.Proofs.Scene.Orderly
import SceneSearch.Scene.Outline

/-!
# Outlines are renderings

An outline is written by one walk that keeps with each waiting node the level it stands at. In a
tree it is the text that a recursion over the tree gives: the line of the node, then the outlines of
its children a level deeper, or at the limit the line that counts them. So the nodes down to the
limit come in document order, each of them once, and no other node comes at all.
-/

namespace SceneSearch

/-! ## Walks and texts in parts -/

/-- Walks with one line for each of the things they find, one after the other. -/
theorem Finishes.flatMap {α β γ : Type} {below : β → List β} {record : β → Option (List α)}
    {found : β → List γ} {line : γ → α} {first : List β}
    (h : ∀ b ∈ first, Finishes below record [b] (found b).length ((found b).map line)) :
    Finishes below record first (first.flatMap found).length ((first.flatMap found).map line) := by
  induction first with
  | nil => exact .nil
  | cons b rest ih =>
    rw [List.flatMap_cons, List.length_append, List.map_append]
    exact (h b List.mem_cons_self).append (ih fun a ha ↦ h a (List.mem_cons_of_mem b ha))

private theorem join_flatMap {α : Type} (l : List α) (f : α → List String) :
    String.join (l.flatMap f) = String.join (l.map fun a ↦ String.join (f a)) := by
  induction l with
  | nil => rfl
  | cons a rest ih =>
    rw [List.flatMap_cons, String.join_append, ih, List.map_cons, String.join_cons]

namespace Spot

/-! ## Renderings -/

/-- The text of a node at a level and of what is below it: its line, and then the texts of its
children in turn or, at the limit, the line that stands for them. -/
def rendering (limit : Option Nat) (s : Spot) (depth : Nat) (hs : s.Grounded) : String :=
  s.outlineLine depth ++
    if limit = some depth then s.cutLine depth
    else String.join (s.children.attach.map fun c ↦
      rendering limit c.1 (depth + 1) (hs.child c.2))
termination_by (⟨s, hs⟩ : {s : Spot // Acc (fun c s ↦ c ∈ s.children) s})
decreasing_by exact c.2

/-- Whether a limit lets a level be shown. -/
def showsLevel (limit : Option Nat) (depth : Nat) : Bool := limit.all (depth ≤ ·)

/-- What is shown of a node at a level and of what is below it: the nodes down to the limit in
document order, with their levels. -/
def rows (limit : Option Nat) (s : Spot) (depth : Nat) : List (Spot × Nat) :=
  (s.subtree.filter fun t ↦ showsLevel limit (depth + t.depthBelow s)).map fun t ↦
    (t, depth + t.depthBelow s)

/-- The lines of a shown node: its own, and at the limit the one that stands for its children. -/
def rowLines (limit : Option Nat) (row : Spot × Nat) : String :=
  row.1.outlineLine row.2 ++ if limit = some row.2 then row.1.cutLine row.2 else ""

variable {limit : Option Nat} {depth : Nat}

theorem showsLevel_zero (limit : Option Nat) : showsLevel limit 0 = true := by
  cases limit <;> simp [showsLevel]

private theorem showsLevel_of_le {a b : Nat} (hle : a ≤ b) (hb : showsLevel limit b = true) :
    showsLevel limit a = true := by
  cases limit with
  | none => rfl
  | some n =>
    simp only [showsLevel, Option.all_some, decide_eq_true_eq] at hb ⊢
    exact Nat.le_trans hle hb

theorem showsLevel_succ_iff :
    showsLevel limit (depth + 1) = true ↔ showsLevel limit depth = true ∧ limit ≠ some depth := by
  cases limit with
  | none => simp [showsLevel]
  | some n =>
    simp only [showsLevel, Option.all_some, decide_eq_true_eq, ne_eq, Option.some.injEq]
    omega

theorem isCut_iff : isCut (limit.map (↑)) depth = true ↔ limit = some depth := by
  cases limit with
  | none => simp [isCut]
  | some n =>
    rw [isCut, Option.map_some, beq_iff_eq, Option.some.injEq, Option.some.injEq]
    exact Int.ofNat_inj

private theorem outlineLines_eq (s : Spot) :
    s.outlineLines (limit.map (↑)) depth = rowLines limit (s, depth) := by
  by_cases hlimit : limit = some depth
  · rw [outlineLines, if_pos (isCut_iff.mpr hlimit), rowLines, if_pos hlimit]
  · rw [outlineLines, if_neg (isCut_iff.not.mpr hlimit), rowLines, if_neg hlimit,
      String.append_empty]

/-! ## Levels -/

theorem depthBelow_self (s : Spot) : s.depthBelow s = 0 := by
  rw [depthBelow, chain, List.takeWhile_cons, same_iff.mpr rfl]
  exact Nat.min_eq_left (Nat.zero_le _)

namespace IsTree

variable {r s t p c : Spot}

private theorem depthBelow_of_mem_children (ht : r.IsTree) (hs : r.Reaches s) (hp : s.Reaches p)
    (hc : c ∈ p.children) : c.depthBelow s = p.depthBelow s + 1 := by
  have hne : c.same s = false := by
    refine Bool.eq_false_iff.mpr fun hsame ↦ ht.not_holds_self hs ?_
    have hholds := holds_iff_exists_parent.mpr ⟨p, hp, hc⟩
    rwa [(ht.same_iff_eq ((hs.trans hp).child hc) hs).mp hsame] at hholds
  rw [depthBelow, depthBelow, ht.chain_of_mem_children (hs.trans hp) hc,
    ht.ancestors_of_mem_children (hs.trans hp) hc, List.takeWhile_cons, hne]
  simp only [Bool.not_false, if_true, List.length_cons]
  omega

private theorem depthBelow_eq_succ (ht : r.IsTree) (hs : r.Reaches s) (hc : c ∈ s.children)
    (hct : c.Reaches t) : t.depthBelow s = t.depthBelow c + 1 := by
  induction hct with
  | refl => rw [ht.depthBelow_of_mem_children hs (.refl s) hc, depthBelow_self, depthBelow_self]
  | @tail p t hp hpt ih =>
    have hsp : s.Reaches p := holds_iff_exists_child.mpr ⟨c, hc, hp⟩ |>.reaches
    rw [ht.depthBelow_of_mem_children hs hsp hpt,
      ht.depthBelow_of_mem_children (hs.child hc) hp hpt, ih]

/-! ## Rows -/

private theorem rows_of_mem_children (ht : r.IsTree) (hs : r.Reaches s) (hc : c ∈ s.children) :
    (c.subtree.filter fun t ↦ showsLevel limit (depth + t.depthBelow s)).map
      (fun t ↦ (t, depth + t.depthBelow s)) = c.rows limit (depth + 1) := by
  have hdepth : ∀ t ∈ c.subtree, depth + t.depthBelow s = depth + 1 + t.depthBelow c := by
    intro t hmem
    rw [ht.depthBelow_eq_succ hs hc ((ht.mem_subtree_iff (hs.child hc)).mp hmem)]
    omega
  have hfilter : (c.subtree.filter fun t ↦ showsLevel limit (depth + t.depthBelow s)) =
      c.subtree.filter fun t ↦ showsLevel limit (depth + 1 + t.depthBelow c) :=
    List.filter_congr fun t hmem ↦ by rw [hdepth t hmem]
  rw [rows, hfilter]
  exact List.map_congr_left fun t hmem ↦ by rw [hdepth t (List.mem_of_mem_filter hmem)]

/-- The rows of a node are its own and then, above the limit, those of its children in turn. -/
theorem rows_eq (ht : r.IsTree) (hs : r.Reaches s) (hdepth : showsLevel limit depth = true) :
    s.rows limit depth = (s, depth) ::
      if limit = some depth then [] else s.children.flatMap (rows limit · (depth + 1)) := by
  have hrest : ((s.children.flatMap subtree).filter fun t ↦
      showsLevel limit (depth + t.depthBelow s)).map (fun t ↦ (t, depth + t.depthBelow s)) =
      s.children.flatMap (rows limit · (depth + 1)) := by
    rw [List.filter_flatMap, List.map_flatMap]
    exact List.flatMap_congr fun c hc ↦ ht.rows_of_mem_children hs hc
  have hself : showsLevel limit (depth + s.depthBelow s) = true := by rwa [depthBelow_self]
  rw [rows, ht.subtree_eq hs, ht.descendants_everything_eq hs, List.filter_cons, if_pos hself,
    List.map_cons, hrest, depthBelow_self, Nat.add_zero]
  split
  case isFalse => rfl
  case isTrue hlimit =>
    -- at the limit no child has a row
    refine congrArg _ (List.flatMap_eq_nil_iff.mpr fun c _ ↦ ?_)
    rw [rows, List.map_eq_nil_iff, List.filter_eq_nil_iff]
    intro t _ hshown
    exact (showsLevel_succ_iff.mp (showsLevel_of_le (Nat.le_add_right _ _) hshown)).2 hlimit

/-! ## The walk -/

/-- The walk of an outline goes through the rows, a step for each, and records their lines. -/
theorem finishes_rows (ht : r.IsTree) (hs : r.Reaches s) : ∀ depth, showsLevel limit depth = true →
    Finishes (fun a : Spot × Nat ↦ a.1.outlineBelow (limit.map (↑)) a.2)
      (fun a ↦ some [a.1.outlineLines (limit.map (↑)) a.2]) [(s, depth)] (s.rows limit depth).length
      ((s.rows limit depth).map (rowLines limit)) := by
  refine ht.induction_below (fun s hs ih depth hdepth ↦ ?_) hs
  rw [ht.rows_eq hs hdepth, List.length_cons, List.map_cons]
  change Finishes _ _ [(s, depth)] _ ([rowLines limit (s, depth)] ++ _)
  refine Finishes.visited (congrArg (some [·]) s.outlineLines_eq) ?_
  rw [outlineBelow]
  by_cases hlimit : limit = some depth
  · rw [if_pos hlimit, if_pos (isCut_iff.mpr hlimit)]
    exact .nil
  · rw [if_neg hlimit, if_neg (isCut_iff.not.mpr hlimit)]
    have hbelow := showsLevel_succ_iff.mpr ⟨hdepth, hlimit⟩
    rw [← List.flatMap_map (fun c ↦ (c, depth + 1)) fun a : Spot × Nat ↦ a.1.rows limit a.2]
    refine Finishes.flatMap fun a ha ↦ ?_
    obtain ⟨c, hc, rfl⟩ := List.mem_map.mp ha
    exact ih c hc (depth + 1) hbelow

private theorem length_subtree_le_steps (ht : r.IsTree) (hs : r.Reaches s) :
    s.subtree.length ≤ s.steps := by
  by_cases hlinks : s.scene.links = {}
  · rw [subtree_eq_preorder hlinks, length_preorder]
    exact Nat.le_add_right _ _
  · obtain ⟨hstands, -⟩ := ht.stands_and_scene hs
    exact hstands.length_le_steps hlinks (ht.nodup_subtree hs) fun t hmem ↦
      (ht.mem_subtree_iff hs).mp hmem

private theorem outline_eq_join_rows (ht : r.IsTree) (hs : r.Reaches s) :
    s.outline (limit.map (↑)) = String.join ((s.rows limit 0).map (rowLines limit)) := by
  have hle : (s.rows limit 0).length ≤ s.steps := by
    rw [rows, List.length_map]
    exact Nat.le_trans (List.length_filter_le _ _) (ht.length_subtree_le_steps hs)
  exact congrArg String.join ((ht.finishes_rows hs 0 (showsLevel_zero limit)).walk_eq hle)

private theorem rendering_eq_join_rows (ht : r.IsTree) (hs : r.Reaches s) :
    ∀ depth, showsLevel limit depth = true → ∀ hg : s.Grounded,
      s.rendering limit depth hg = String.join ((s.rows limit depth).map (rowLines limit)) := by
  refine ht.induction_below (fun s hs ih depth hdepth hg ↦ ?_) hs
  rw [rendering, ht.rows_eq hs hdepth, List.map_cons, String.join_cons, rowLines]
  by_cases hlimit : limit = some depth
  · rw [if_pos hlimit, if_pos hlimit, if_pos hlimit, List.map_nil, String.join_nil,
      String.append_empty]
  · have hbelow := showsLevel_succ_iff.mpr ⟨hdepth, hlimit⟩
    have hchildren : ∀ c ∈ s.children.attach, c.1.rendering limit (depth + 1) (hg.child c.2) =
        String.join ((c.1.rows limit (depth + 1)).map (rowLines limit)) := fun c _ ↦
      ih c.1 c.2 (depth + 1) hbelow (hg.child c.2)
    rw [if_neg hlimit, if_neg hlimit, if_neg hlimit, String.append_empty, List.map_flatMap,
      join_flatMap, List.map_congr_left hchildren]
    rw [← List.attach_map_val (l := s.children)
      (f := fun c ↦ String.join ((c.rows limit (depth + 1)).map (rowLines limit)))]

theorem mem_shown_iff (ht : r.IsTree) (hs : r.Reaches s) :
    (t ∈ s.subtree.filter fun t ↦ showsLevel limit (t.depthBelow s)) ↔
      s.Reaches t ∧ ∀ n, limit = some n → t.depthBelow s ≤ n := by
  rw [List.mem_filter, ht.mem_subtree_iff hs]
  refine and_congr_right fun _ ↦ ?_
  cases limit <;> simp [showsLevel]

/-- **An outline is the rendering of its tree.** It joins the lines of the nodes that are at most as
many levels below the start as the limit says: each of these nodes once, in document order, and no
other node. -/
theorem outline_eq_rendering (ht : r.IsTree) (hs : r.Reaches s) (limit : Option Nat) :
    s.outline (limit.map (↑)) = s.rendering limit 0 (ht.grounded hs) ∧
      (∀ t, s.Reaches t → t.subtree = t :: t.children.flatMap subtree) ∧
      let shown := s.subtree.filter fun t ↦ showsLevel limit (t.depthBelow s)
      s.outline (limit.map (↑)) = String.join (shown.map fun t ↦
          t.outlineLine (t.depthBelow s) ++
            if limit = some (t.depthBelow s) then t.cutLine (t.depthBelow s) else "") ∧
        shown.Nodup ∧ ∀ t, t ∈ shown ↔ s.Reaches t ∧ ∀ n, limit = some n → t.depthBelow s ≤ n := by
  have houtline : s.outline (limit.map (↑)) = _ := ht.outline_eq_join_rows hs
  refine ⟨?_, fun t hst ↦ ?_, ?_, (ht.nodup_subtree hs).filter _, fun t ↦ ht.mem_shown_iff hs⟩
  · rw [houtline, ht.rendering_eq_join_rows hs 0 (showsLevel_zero limit)]
  · rw [ht.subtree_eq (hs.trans hst), ht.descendants_everything_eq (hs.trans hst)]
  · rw [houtline, rows, List.map_map]
    simp only [Nat.zero_add]
    rfl

end IsTree

/-- A page with its card; what is in the card is only counted. -/
theorem outline_eq_rendering_cards :
    Document.cards.root.IsTree ∧ Document.cards.root.Reaches Document.cardPage ∧
      ∃ hg : Document.cardPage.Grounded, Document.cardPage.rendering (some 1) 0 hg =
        "- #Home (1:1)\n    - @Card (1:2)\n        - ... (2 more children, id=1:2)\n" := by
  have ht := Document.orderly_cards.tree
  have hs : Document.cards.root.Reaches Document.cardPage :=
    (Reaches.refl _).child (List.mem_singleton.mpr rfl)
  refine ⟨ht, hs, ht.grounded hs, ?_⟩
  rw [← (ht.outline_eq_rendering hs (some 1)).1]
  decide

end Spot

end SceneSearch
