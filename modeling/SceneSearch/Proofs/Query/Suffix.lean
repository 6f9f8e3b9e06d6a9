import SceneSearch.Proofs.Query.Continuation

/-!
# A modifier behind a query

A modifier that is written behind a query, with a blank in front, stands in the last piece of it and
is taken out of that again. So the pieces are those of the query, and the last one has a modifier
more. For `--h` and `--a` this is all that the plan shows: no segment reads what modifiers its own
piece has, since neither of the two is a pick. `exists_plans_marked` puts the plans of a query
without modifiers, with `--a` and with `--h` behind it side by side: they are made of the same
placed pieces.
-/

namespace SceneSearch

variable {query suffix : String} {w : Modifier}

/-! ## The modifier in its piece -/

/-- The suffix is a modifier behind a blank. -/
structure Modifier.Spells (suffix : String) (w : Modifier) : Prop where
  /-- It starts with a blank, so that no word runs into it. -/
  starts : suffix.toList.head? = some ' '
  /-- It opens no quote, -/
  quote : '"' ∉ suffix.toList
  /-- and does not cut. -/
  slash : '/' ∉ suffix.toList
  /-- The modifier is taken out, and the blank is left. -/
  taken : Modifier.takeAlong false [] suffix.toList = .ok ⟨[' '], [w]⟩

namespace Modifier

theorem spells_allLayers : Spells " --a" .allLayers := ⟨rfl, by decide, by decide, rfl⟩

theorem spells_hiddenOnly : Spells " --h" .hiddenOnly := ⟨rfl, by decide, by decide, rfl⟩

/-- Behind a text that leaves no quote open the modifier is taken out after those of the text. -/
theorem extract_append_suffix (h : Spells suffix w) {s : List Char}
    (hclosed : openAfter false s = false) :
    extract (s ++ suffix.toList) =
      (extract s).map fun e ↦ { e with modifiers := e.modifiers ++ [w] } := by
  have hstarts : StartsBlank suffix.toList := by
    intro c hc
    obtain rfl : ' ' = c := Option.some.inj (h.starts.symm.trans hc)
    rfl
  rw [extract_eq, extract_eq, takeAlong_append hclosed hstarts, h.taken]
  rcases takeAlong false [] s with cause | e
  · rfl
  · change Except.ok (Extraction.mk (trim (e.text ++ [' '])) (e.modifiers ++ [w])) = _
    rw [trim_append_blanks (by simp [isBlank])]
    rfl

end Modifier

namespace QueryPlan

open Modifier

variable {pieces init : List CleanPiece} {p : CleanPiece} {m : QueryModifiers}

/-- The piece with a modifier more. -/
def CleanPiece.marked (p : CleanPiece) (w : Modifier) : CleanPiece :=
  { p with modifiers := p.modifiers ++ [w] }

/-- A piece that leaves no quote open has the modifier too if the suffix stands at its end. -/
theorem ofPiece_append_suffix (h : Spells suffix w) {piece : Piece}
    (hclosed : openAfter false piece.text = false) :
    CleanPiece.ofPiece ⟨piece.separator, piece.text ++ suffix.toList⟩ =
      (CleanPiece.ofPiece piece).map (CleanPiece.marked · w) := by
  rw [CleanPiece.ofPiece, CleanPiece.ofPiece, extract_append_suffix h hclosed]
  rcases extract piece.text with cause | e <;> rfl

/-- **The pieces of a query with the suffix** are its own, and the last one has the modifier too. -/
theorem cleanPieces_append_suffix (h : Spells suffix w) (hpieces : cleanPieces query = .ok pieces)
    (hclosed : Even (query.toList.count '"')) :
    ∃ init p, pieces = init ++ [p] ∧
      cleanPieces (query ++ suffix) = .ok (init ++ [p.marked w]) := by
  have hclosed' : Even ((query ++ suffix).toList.count '"') := by
    rw [String.toList_append, List.count_append, List.count_eq_zero_of_not_mem h.quote]
    exact hclosed
  obtain ⟨front, last, text, hcut, hcut', hopen⟩ :=
    Piece.exists_cut_append .start [] query.toList h.slash (openAfter_nil false)
  rw [openAfter_eq_false_iff.mpr hclosed] at hopen
  rw [cleanPieces_eq_of_closed hclosed, cleanCut, hcut] at hpieces
  obtain ⟨init, _, hinit, hlast, rfl⟩ := exists_of_mapM_append hpieces
  obtain ⟨p, hp, rfl⟩ := exists_of_mapM_singleton hlast
  have hmarked : CleanPiece.ofPiece ⟨last, text ++ suffix.toList⟩ = .ok (p.marked w) := by
    rw [@ofPiece_append_suffix _ _ h ⟨last, text⟩ hopen, hp]
    rfl
  refine ⟨init, p, rfl, ?_⟩
  rw [cleanPieces_eq_of_closed hclosed', String.toList_append, cleanCut, hcut', List.mapM_append,
    hinit, List.mapM_cons, hmarked]
  rfl

/-! ## Pieces and segments without regard to modifiers -/

/-- The piece as if it had no modifiers. -/
def CleanPiece.bare (p : CleanPiece) : CleanPiece := { p with modifiers := [] }

/-- The placed piece as if it had no modifiers. -/
def PlacedPiece.bare (p : PlacedPiece) : PlacedPiece := { p with piece := p.piece.bare }

private theorem map_bare_of_free (h : ∀ p ∈ pieces, p.modifiers = []) :
    pieces.map CleanPiece.bare = pieces := by
  have hbare : ∀ p ∈ pieces, p.bare = id p := by
    intro p hp
    rw [CleanPiece.bare, ← h p hp]
    rfl
  rw [List.map_congr_left hbare, List.map_id]

private theorem leading_map_bare (pieces : List CleanPiece) :
    leading (pieces.map CleanPiece.bare) =
      ((leading pieces).1, (leading pieces).2.map CleanPiece.bare) := by
  rcases pieces with _ | ⟨first, _ | ⟨second, rest⟩⟩
  · rfl
  · rfl
  · change (if first.text.isEmpty then _ else _) = _
    rw [leading]
    split <;> rfl

private theorem arrange_map_bare (carried : Bool) (pieces : List CleanPiece) :
    arrange carried (pieces.map CleanPiece.bare) =
      (arrange carried pieces).map PlacedPiece.bare := by
  induction pieces generalizing carried with
  | nil => rfl
  | cons p rest ih =>
    have hempty : (rest.map CleanPiece.bare).isEmpty = rest.isEmpty := List.isEmpty_map
    rw [List.map_cons, arrange, arrange, hempty, ih, ih]
    change (if !p.text.isEmpty then _
      else if rest.isEmpty && p.separator != .start then _ else _) = _
    split
    · rfl
    · split <;> rfl

/-- Where modifiers are `--h` and `--a` only, no segment depends on those of its own piece. -/
theorem segmentsOf_map_bare (m : QueryModifiers) {placed : List PlacedPiece}
    (h : ∀ p ∈ placed, ∀ w ∈ p.piece.modifiers, w = .hiddenOnly ∨ w = .allLayers)
    (isFirst : Bool) :
    segmentsOf m isFirst (placed.map PlacedPiece.bare) = segmentsOf m isFirst placed := by
  induction placed generalizing isFirst with
  | nil => rfl
  | cons p rest ih =>
    obtain ⟨hindex, heach⟩ := lastIndex?_eq_none (h p List.mem_cons_self)
    have hpick : ∀ isFinal, pickFor m p.piece.bare isFinal = pickFor m p.piece isFinal := by
      intro isFinal
      rw [pickFor, pickFor, hindex, heach]
      rfl
    have hempty : (rest.map PlacedPiece.bare).isEmpty = rest.isEmpty := List.isEmpty_map
    rw [List.map_cons, segmentsOf, segmentsOf, hempty,
      ih fun q hq ↦ h q (List.mem_cons_of_mem p hq)]
    refine congrArg (· :: _) ?_
    rw [segmentOf, segmentOf]
    change SegmentPlan.mk _ _ _ _ (pickFor m p.piece.bare _) _ _ _ _ = _
    rw [hpick]
    rfl

private theorem assembled_map_bare (raw : String) (m : QueryModifiers) (childSearch : Bool)
    {placed : List PlacedPiece}
    (h : ∀ p ∈ placed, ∀ w ∈ p.piece.modifiers, w = .hiddenOnly ∨ w = .allLayers) :
    assembled raw m childSearch (placed.map PlacedPiece.bare) =
      assembled raw m childSearch placed := by
  rw [assembled, assembled, segmentsOf_map_bare m h, List.isEmpty_map]

theorem modifiersOf_append_singleton (hfree : ∀ q ∈ init, q.modifiers = []) (p : CleanPiece) :
    modifiersOf (init ++ [p]) = modifiersOf [p] := by
  have hinit : init.flatMap CleanPiece.modifiers = [] := List.flatMap_eq_nil_iff.mpr hfree
  rw [modifiersOf, modifiersOf, List.flatMap_append, hinit, List.getLast?_concat]
  rfl

/-! ## Plans -/

private theorem parseQuery_append_suffix (h : Spells suffix w)
    (hw : w = .hiddenOnly ∨ w = .allLayers)
    (hpieces : cleanPieces query = .ok pieces) (hfree : ∀ p ∈ pieces, p.modifiers = [])
    (hclosed : Even (query.toList.count '"')) :
    parseQuery (query ++ suffix) =
        .ok (assembled (query ++ suffix) (modifiersOf [⟨.start, [], [w]⟩]) (leading pieces).1
          (arrange false (leading pieces).2)) ∧
      KeepsAll (query ++ suffix) := by
  obtain ⟨init, p, rfl, hmarked⟩ := cleanPieces_append_suffix h hpieces hclosed
  have hnone : p.modifiers = [] := hfree p (by simp)
  have hp : p.marked w = { p with modifiers := [w] } := by
    rw [CleanPiece.marked, hnone]
    rfl
  rw [hp] at hmarked
  have hmodifiers : ∀ q ∈ init ++ [{ p with modifiers := [w] }], ∀ v ∈ q.modifiers,
      v = .hiddenOnly ∨ v = .allLayers := by
    intro q hq v hv
    rcases List.mem_append.mp hq with hq | hq
    · rw [hfree q (List.mem_append_left _ hq)] at hv
      cases hv
    · rw [List.mem_singleton.mp hq] at hv
      rw [List.mem_singleton.mp hv]
      exact hw
  have hbare : (init ++ [{ p with modifiers := [w] }]).map CleanPiece.bare = init ++ [p] := by
    rw [← map_bare_of_free hfree, List.map_append, List.map_append]
    rfl
  have hleading := leading_map_bare (init ++ [{ p with modifiers := [w] }])
  rw [hbare] at hleading
  have hplaced : ∀ q ∈ arrange false (leading (init ++ [{ p with modifiers := [w] }])).2,
      ∀ v ∈ q.piece.modifiers, v = .hiddenOnly ∨ v = .allLayers := fun q hq ↦
    hmodifiers q.piece (mem_of_mem_leading (mem_of_mem_arrange hq))
  have hm : modifiersOf (init ++ [{ p with modifiers := [w] }]) =
      modifiersOf [⟨.start, [], [w]⟩] :=
    modifiersOf_append_singleton (fun q hq ↦ hfree q (List.mem_append_left _ hq)) _
  constructor
  · rw [parseQuery_eq, hmarked]
    refine congrArg Except.ok ?_
    rw [ofPieces_eq, hm, hleading, arrange_map_bare, assembled_map_bare _ _ _ hplaced]
  · intro pieces hpieces'
    obtain rfl := Except.ok.inj (hmarked.symm.trans hpieces')
    exact hmodifiers

theorem ModifierFree.keepsAll (hfree : ModifierFree query) : KeepsAll query := by
  obtain ⟨pieces, hpieces, hnone⟩ := hfree
  intro pieces' hpieces' p hp w hw
  obtain rfl := Except.ok.inj (hpieces.symm.trans hpieces')
  rw [hnone p hp] at hw
  cases hw

/-- **A query without modifiers, and the same with `--a` or with `--h` behind it.** Their plans are
made of the same placed pieces and start in the same way. -/
theorem exists_plans_marked (hfree : ModifierFree query)
    (hclosed : Even (query.toList.count '"')) :
    ∃ childSearch placed,
      (parseQuery query = .ok (assembled query {} childSearch placed) ∧ KeepsAll query) ∧
      (parseQuery (query ++ " --a") =
          .ok (assembled (query ++ " --a") { allLayers := true } childSearch placed) ∧
        KeepsAll (query ++ " --a")) ∧
      (parseQuery (query ++ " --h") =
          .ok (assembled (query ++ " --h") { hiddenOnly := true } childSearch placed) ∧
        KeepsAll (query ++ " --h")) := by
  have hall := hfree.keepsAll
  obtain ⟨pieces, hpieces, hnone⟩ := hfree
  refine ⟨(leading pieces).1, arrange false (leading pieces).2, ⟨?_, hall⟩, ?_, ?_⟩
  · rw [parseQuery_eq, hpieces]
    exact congrArg Except.ok (ofPieces_of_free hnone)
  · exact parseQuery_append_suffix spells_allLayers (Or.inr rfl) hpieces hnone hclosed
  · exact parseQuery_append_suffix spells_hiddenOnly (Or.inl rfl) hpieces hnone hclosed

end QueryPlan

end SceneSearch
