import SceneSearch.Query.Plan

/-!
# How segments follow from modifiers

A plan has one segment for each piece that is left, and most of what a segment says is said by its
place: the first one is marked as first and the last one as final, and how hidden nodes are treated
and whether the first match ends the search follow from the modifiers of the whole query.
`QueryPlan.Arranged` puts this together, one segment at a time, so that statements on plans are
proved by induction on segments without looking at pieces again.
-/

namespace SceneSearch

namespace QueryPlan

variable {m : QueryModifiers} {isFirst : Bool} {segments : List SegmentPlan} {plan : QueryPlan}
  {query : String}

/-! ## Segments by their places -/

/-- Segments say what modifiers and their places make them say. -/
def Arranged (m : QueryModifiers) (isFirst : Bool) : List SegmentPlan → Prop
  | [] => True
  | segment :: rest =>
    segment.isFirst = isFirst ∧
      segment.visibility = .resolve m.hiddenOnly m.allLayers rest.isEmpty ∧
      segment.stopAtFirst = m.firstOverall ∧ Arranged m false rest

private theorem arranged_segmentsOf (m : QueryModifiers) (isFirst : Bool)
    (pieces : List PlacedPiece) :
    Arranged m isFirst (segmentsOf m isFirst pieces) := by
  induction pieces generalizing isFirst with
  | nil => trivial
  | cons p rest ih =>
    refine ⟨rfl, ?_, rfl, ih false⟩
    cases rest <;> rfl

theorem Arranged.visibility_eq (h : Arranged m isFirst segments)
    (hvisible : m.includesHidden = false) :
    ∀ segment ∈ segments, segment.visibility = .default := by
  induction segments generalizing isFirst with
  | nil => simp
  | cons segment rest ih =>
    obtain ⟨-, hvisibility, -, hrest⟩ := h
    obtain ⟨hhidden, hall⟩ := Bool.or_eq_false_iff.mp hvisible
    intro s hs
    rcases List.mem_cons.mp hs with rfl | hs
    · rw [hvisibility, hhidden, hall]
      rfl
    · exact ih hrest s hs

theorem Arranged.stopAtFirst_eq (h : Arranged m isFirst segments) :
    ∀ segment ∈ segments, segment.stopAtFirst = m.firstOverall := by
  induction segments generalizing isFirst with
  | nil => simp
  | cons segment rest ih =>
    obtain ⟨-, -, hstop, hrest⟩ := h
    exact List.forall_mem_cons.mpr ⟨hstop, ih hrest⟩

/-! ## Plans of queries -/

/-- The pieces of a query without their modifiers. -/
def cleanPieces (query : String) : Except TooManyDigits (List CleanPiece) :=
  (Piece.split (String.ofList (trim query.toList))).mapM CleanPiece.ofPiece

theorem parseQuery_eq (query : String) :
    parseQuery query = (cleanPieces query).map (ofPieces query) := by
  rw [parseQuery, cleanPieces]
  cases (Piece.split (String.ofList (trim query.toList))).mapM CleanPiece.ofPiece <;> rfl

theorem exists_ofPieces (h : parseQuery query = .ok plan) :
    ∃ pieces, cleanPieces query = .ok pieces ∧ plan = ofPieces query pieces := by
  rw [parseQuery_eq] at h
  cases hpieces : cleanPieces query with
  | error cause =>
    rw [hpieces] at h
    cases h
  | ok pieces =>
    rw [hpieces] at h
    exact ⟨pieces, rfl, (Except.ok.inj h).symm⟩

/-- The segments of a plan say what its modifiers and their places make them say. -/
theorem arranged_of_parseQuery (h : parseQuery query = .ok plan) :
    Arranged plan.modifiers true plan.segments := by
  obtain ⟨pieces, -, rfl⟩ := exists_ofPieces h
  exact arranged_segmentsOf ..

theorem visibility_eq_default (h : parseQuery query = .ok plan)
    (hvisible : plan.modifiers.includesHidden = false) :
    ∀ segment ∈ plan.segments, segment.visibility = .default :=
  (arranged_of_parseQuery h).visibility_eq hvisible

/-- Blanks around a query change nothing but the text that the plan keeps of it. -/
theorem eq_of_trim_eq {query' : String} {plan' : QueryPlan} (h : parseQuery query = .ok plan)
    (h' : parseQuery query' = .ok plan')
    (htrim : String.ofList (trim query.toList) = String.ofList (trim query'.toList)) :
    plan' = { plan with raw := query' } := by
  obtain ⟨pieces, hpieces, rfl⟩ := exists_ofPieces h
  obtain ⟨pieces', hpieces', rfl⟩ := exists_ofPieces h'
  rw [cleanPieces, htrim] at hpieces
  obtain rfl : pieces = pieces' := Except.ok.inj (hpieces.symm.trans hpieces')
  rfl

/-! ## Queries that keep all matches -/

/-- A query asks for all matches if its modifiers are `--h` and `--a`, and neither `--f`, `--fe` nor
an index. -/
def KeepsAll (query : String) : Prop :=
  ∀ pieces, cleanPieces query = .ok pieces → ∀ p ∈ pieces, ∀ w ∈ p.modifiers,
    w = .hiddenOnly ∨ w = .allLayers

section

variable {modifiers : List Modifier} {pieces : List CleanPiece} {placed : List PlacedPiece}

theorem lastIndex?_eq_none (h : ∀ w ∈ modifiers, w = .hiddenOnly ∨ w = .allLayers) :
    Modifier.lastIndex? modifiers = none ∧ Modifier.lastIndexEach? modifiers = none := by
  rw [Modifier.lastIndex?, Modifier.lastIndexEach?]
  induction modifiers with
  | nil => exact ⟨rfl, rfl⟩
  | cons w rest ih =>
    have hrest := ih fun v hv ↦ h v (List.mem_cons_of_mem w hv)
    rcases h w List.mem_cons_self with rfl | rfl <;> exact hrest

theorem modifiersOf_of_keepsAll
    (h : ∀ p ∈ pieces, ∀ w ∈ p.modifiers, w = .hiddenOnly ∨ w = .allLayers) :
    (modifiersOf pieces).firstOverall = false ∧ (modifiersOf pieces).firstEach = false ∧
      (modifiersOf pieces).index = none ∧ (modifiersOf pieces).indexEach = none := by
  have hall : ∀ w ∈ pieces.flatMap CleanPiece.modifiers, w = .hiddenOnly ∨ w = .allLayers := by
    intro w hw
    obtain ⟨p, hp, hw⟩ := List.mem_flatMap.mp hw
    exact h p hp w hw
  have hlast : ∀ w ∈ (pieces.getLast?.map CleanPiece.modifiers).getD [],
      w = .hiddenOnly ∨ w = .allLayers := by
    cases hpiece : pieces.getLast? with
    | none => simp
    | some p => exact h p (List.mem_of_getLast? hpiece)
  have hnot : ∀ w, w ≠ .hiddenOnly → w ≠ .allLayers →
      (pieces.flatMap CleanPiece.modifiers).contains w = false := by
    intro w hhidden hlayers
    rw [Bool.eq_false_iff, Ne, List.contains_iff_mem]
    exact fun hmem ↦ (hall w hmem).elim hhidden hlayers
  exact ⟨hnot _ (by simp) (by simp), hnot _ (by simp) (by simp), lastIndex?_eq_none hlast⟩

theorem mem_of_mem_arrange {carried : Bool} {p : PlacedPiece} (h : p ∈ arrange carried pieces) :
    p.piece ∈ pieces := by
  induction pieces generalizing carried with
  | nil => cases h
  | cons q rest ih =>
    simp only [arrange] at h
    split at h
    · rcases List.mem_cons.mp h with rfl | h
      · exact List.mem_cons_self
      · exact List.mem_cons_of_mem q (ih h)
    · split at h
      · obtain rfl := List.mem_singleton.mp h
        exact List.mem_cons_self
      · exact List.mem_cons_of_mem q (ih h)

private theorem pick_eq_none {m : QueryModifiers} (hm : m.firstEach = false ∧ m.indexEach = none)
    (h : ∀ p ∈ placed, ∀ w ∈ p.piece.modifiers, w = .hiddenOnly ∨ w = .allLayers) :
    ∀ segment ∈ segmentsOf m isFirst placed, segment.pick = none := by
  induction placed generalizing isFirst with
  | nil => simp [segmentsOf]
  | cons p rest ih =>
    intro segment hsegment
    rcases List.mem_cons.mp hsegment with rfl | hsegment
    · obtain ⟨hindex, heach⟩ := lastIndex?_eq_none (h p List.mem_cons_self)
      simp [segmentOf, pickFor, hm.1, hm.2, hindex, heach]
    · exact ih (fun q hq ↦ h q (List.mem_cons_of_mem p hq)) segment hsegment

end

theorem picks_nothing (h : parseQuery query = .ok plan) (hall : KeepsAll query) :
    plan.modifiers.firstOverall = false ∧ plan.finalPick = none ∧
      ∀ segment ∈ plan.segments, segment.pick = none := by
  obtain ⟨pieces, hpieces, rfl⟩ := exists_ofPieces h
  have hmodifiers := hall pieces hpieces
  obtain ⟨hfirst, heach, hindex, hindexEach⟩ := modifiersOf_of_keepsAll hmodifiers
  refine ⟨hfirst, ?_, ?_⟩
  · simp [ofPieces, hindex]
  · refine pick_eq_none ⟨heach, hindexEach⟩ fun p hp ↦ hmodifiers p.piece ?_
    -- the segments come from all pieces, or from all but an empty first one
    have hmem := mem_of_mem_arrange hp
    split at hmem
    · split at hmem
      · exact List.mem_cons_of_mem _ hmem
      · exact hmem
    · exact hmem

theorem index_eq_none (h : parseQuery query = .ok plan) (hall : KeepsAll query) :
    plan.modifiers.index = none := by
  obtain ⟨pieces, hpieces, rfl⟩ := exists_ofPieces h
  exact (modifiersOf_of_keepsAll (hall pieces hpieces)).2.2.1

end QueryPlan

end SceneSearch
