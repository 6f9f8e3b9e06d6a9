import SceneSearch.Proofs.Query.Cutting

/-!
# Plans of queries that go on behind others

Without modifiers a plan is told by the pieces that become segments and by whether the search starts
below the selection. `exists_plans` compares three plans: that of a query, that of a rest with a
slash in front, and that of both together. The last one has the segments of the first one and then
those of the second, and starts where the first one does.
-/

namespace SceneSearch.QueryPlan

variable {pieces front back : List CleanPiece} {query raw : String} {p : CleanPiece}

/-- The plan of pieces without modifiers. -/
def plain (raw : String) (childSearch : Bool) (placed : List PlacedPiece) : QueryPlan :=
  { raw, segments := segmentsOf {} true placed, childSearch }

/-- The plan of pieces that have been placed, with the modifiers of the whole query. -/
def assembled (raw : String) (m : QueryModifiers) (childSearch : Bool)
    (placed : List PlacedPiece) : QueryPlan :=
  let finalPick := match m.index with
    | none => none
    | some n => if m.firstOverall || placed.isEmpty then none else some ⟨.overall, n⟩
  { raw, segments := segmentsOf m true placed, modifiers := m, childSearch, finalPick }

/-- Whether the search starts below the selection, and the pieces that are left then: all of them,
or all but an empty first one. -/
def leading : List CleanPiece → Bool × List CleanPiece
  | first :: second :: rest =>
    if first.text.isEmpty then (true, second :: rest) else (false, first :: second :: rest)
  | pieces => (false, pieces)

private theorem modifiersOf_of_free (h : ∀ p ∈ pieces, p.modifiers = []) :
    modifiersOf pieces = {} := by
  have hall : pieces.flatMap CleanPiece.modifiers = [] := List.flatMap_eq_nil_iff.mpr h
  have hlast : (pieces.getLast?.map CleanPiece.modifiers).getD [] = [] := by
    rcases hpiece : pieces.getLast? with _ | p
    · rfl
    · exact h p (List.mem_of_getLast? hpiece)
  rw [modifiersOf, hall, hlast]
  rfl

theorem isEmpty_segmentsOf (m : QueryModifiers) (isFirst : Bool) (placed : List PlacedPiece) :
    (segmentsOf m isFirst placed).isEmpty = placed.isEmpty := by
  cases placed <;> rfl

/-- A query is made of the pieces that are left, placed, and of the modifiers of all its pieces. -/
theorem ofPieces_eq (raw : String) (pieces : List CleanPiece) :
    ofPieces raw pieces =
      assembled raw (modifiersOf pieces) (leading pieces).1 (arrange false (leading pieces).2) := by
  rcases pieces with _ | ⟨first, _ | ⟨second, rest⟩⟩
  · simp only [ofPieces, isEmpty_segmentsOf]
    rfl
  · simp only [ofPieces, isEmpty_segmentsOf]
    rfl
  · simp only [ofPieces, leading, isEmpty_segmentsOf]
    by_cases hfirst : first.text.isEmpty = true
    · rw [if_pos hfirst]
      rfl
    · rw [if_neg hfirst]
      rfl

theorem ofPieces_of_free (h : ∀ p ∈ pieces, p.modifiers = []) :
    ofPieces raw pieces = plain raw (leading pieces).1 (arrange false (leading pieces).2) := by
  rw [ofPieces_eq, modifiersOf_of_free h]
  rfl

/-- Where pieces end with something, more pieces behind them change nothing of where a search
starts. -/
theorem leading_append (hp : p.text ≠ []) (back : List CleanPiece) :
    leading (front ++ p :: back) =
      ((leading (front ++ [p])).1, (leading (front ++ [p])).2 ++ back) := by
  have hempty : p.text.isEmpty = false := by simpa using hp
  rcases front with _ | ⟨first, _ | ⟨second, rest⟩⟩
  · rcases back with _ | ⟨next, back⟩
    · rfl
    · rw [List.nil_append, leading, if_neg (by simp [hempty])]
      rfl
  · simp only [List.cons_append, List.nil_append, leading]
    split <;> rfl
  · simp only [List.cons_append, leading]
    split <;> simp

theorem exists_leading_concat (init : List CleanPiece) :
    ∃ childSearch front, ∀ p, leading (init ++ [p]) = (childSearch, front ++ [p]) := by
  rcases init with _ | ⟨first, rest⟩
  · exact ⟨false, [], fun p ↦ rfl⟩
  · by_cases hempty : first.text.isEmpty = true
    · refine ⟨true, rest, fun p ↦ ?_⟩
      cases rest <;> simp [leading, hempty]
    · refine ⟨false, first :: rest, fun p ↦ ?_⟩
      cases rest <;> simp [leading, hempty]

theorem arrange_append (hp : p.text ≠ []) (carried : Bool) (front back : List CleanPiece) :
    arrange carried (front ++ p :: back) =
      arrange carried (front ++ [p]) ++ arrange false back := by
  have hempty : p.text.isEmpty = false := by simpa using hp
  induction front generalizing carried with
  | nil => simp [arrange, hempty]
  | cons first rest ih =>
    rw [List.cons_append, List.cons_append, arrange, arrange]
    by_cases hfirst : first.text.isEmpty = true
    · simp [hfirst, ih]
    · simp [hfirst, ih]

theorem mem_of_mem_leading {q : CleanPiece} (h : q ∈ (leading pieces).2) : q ∈ pieces := by
  rcases pieces with _ | ⟨first, _ | ⟨second, rest⟩⟩
  · exact h
  · exact h
  · rw [leading] at h
    split at h
    · exact List.mem_cons_of_mem first h
    · exact h

private theorem exists_mem_arrange (carried : Bool) (h : p ∈ pieces) (hp : p.text ≠ []) :
    ∃ q ∈ arrange carried pieces, q.piece = p := by
  have hempty : p.text.isEmpty = false := by simpa using hp
  induction pieces generalizing carried with
  | nil => exact absurd h List.not_mem_nil
  | cons first rest ih =>
    rw [arrange]
    by_cases hfirst : first.text.isEmpty = true
    · have hrest : p ∈ rest := by
        refine (List.mem_cons.mp h).resolve_left ?_
        rintro rfl
        rw [hempty] at hfirst
        exact Bool.false_ne_true hfirst
      have hmore : rest.isEmpty = false := by
        rw [List.isEmpty_eq_false_iff]
        exact List.ne_nil_of_mem hrest
      simp only [hfirst, hmore, Bool.not_true, Bool.false_and, Bool.false_eq_true, if_false]
      exact ih _ hrest
    · simp only [hfirst, Bool.not_false, if_true]
      rcases List.mem_cons.mp h with rfl | hrest
      · exact ⟨_, List.mem_cons_self, rfl⟩
      · obtain ⟨q, hq, hpiece⟩ := ih false hrest
        exact ⟨q, List.mem_cons_of_mem _ hq, hpiece⟩

theorem arrange_leading_append (hp : p.text ≠ []) (front back : List CleanPiece) :
    arrange false (leading (front ++ p :: back)).2 =
      arrange false (leading (front ++ [p])).2 ++ arrange false back := by
  obtain ⟨_, init, hleading⟩ := exists_leading_concat front
  have hinit : (leading (front ++ [p])).2 = init ++ [p] := congrArg Prod.snd (hleading p)
  rw [leading_append hp, hinit, List.append_assoc]
  exact arrange_append hp false init back

theorem arrange_leading_ne_nil (hp : p.text ≠ []) (front : List CleanPiece) :
    arrange false (leading (front ++ [p])).2 ≠ [] := by
  obtain ⟨_, init, hleading⟩ := exists_leading_concat front
  have hinit : (leading (front ++ [p])).2 = init ++ [p] := congrArg Prod.snd (hleading p)
  have hmem : p ∈ (leading (front ++ [p])).2 := by
    rw [hinit]
    exact List.mem_append_right init (List.mem_singleton.mpr rfl)
  obtain ⟨q, hq, -⟩ := exists_mem_arrange false hmem hp
  exact List.ne_nil_of_mem hq

theorem splitSymbol_ne_page {c : Char} {text : List Char} (hblank : isBlank c = false)
    (hc : c ≠ '#') : (splitSymbol (c :: text)).1 ≠ .page := by
  have htrim : trim (c :: text) = c :: trimEnd text := by
    rw [trim, trimStart_of_not_blank text hblank]
    exact @trimEnd_append_cons [] text c hblank
  rw [splitSymbol, htrim]
  dsimp only
  split
  · rename_i symbol hsymbol
    rintro rfl
    exact hc (by simpa [TypeSymbol.char?, eq_comm] using TypeSymbol.ofChar?_eq_some.mp hsymbol)
  · simp

/-- **Plans put together.** Without modifiers, and where the first query leaves no quote open and
does not end in a slash, the plan of both queries with a slash between them starts where that of the
first one does, and has its segments and then those of the second one behind a slash. -/
theorem exists_plans {first second : String} {c : Char} (hfirst : ModifierFree first)
    (hsecond : ModifierFree second) (hclosed : Even (first.toList.count '"'))
    (hne : trim first.toList ≠ []) (hlast : (trim first.toList).getLast? ≠ some '/')
    (hc : (trim second.toList).head? = some c) (hslash : c ≠ '/') (hpage : c ≠ '#') :
    ∃ childSearch front piece back,
      parseQuery first = .ok (plain first childSearch front) ∧
      parseQuery ("/" ++ second) = .ok (plain ("/" ++ second) true (piece :: back)) ∧
      parseQuery (first ++ "/" ++ second) =
        .ok (plain (first ++ "/" ++ second) childSearch (front ++ piece :: back)) ∧
      front ≠ [] ∧ (∀ p ∈ front ++ piece :: back, p.piece.modifiers = []) ∧
      (segmentOf {} piece false false).direct = false ∧
      (segmentOf {} piece false false).symbol ≠ .page := by
  obtain ⟨pieces, hpieces, hfree⟩ := hfirst
  obtain ⟨more, hmore, hfree'⟩ := hsecond
  obtain ⟨init, p, rfl, hp⟩ := exists_last hpieces hfree hne hlast
  obtain ⟨text, rest, rfl, hslashed⟩ := exists_first hmore hfree' hc hslash
  have hne' : trim second.toList ≠ [] := by
    intro hnil
    rw [hnil] at hc
    cases hc
  obtain ⟨d, t, hblank, -, htrim⟩ := exists_trim hne'
  obtain rfl : d = c := by simpa [htrim] using hc
  have hwhole : cleanPieces (first ++ "/" ++ second) =
      .ok (init ++ p :: ⟨.descend, d :: text, []⟩ :: rest) := by
    rw [String.append_assoc, cleanPieces_append hclosed hlast (by simp), hpieces, hslashed]
    simp [Except.bind, Except.map]
  -- neither the slash nor what is before it or behind it adds a modifier
  have hfreeSlashed : ∀ q ∈ (⟨.start, [], []⟩ :: ⟨.descend, d :: text, []⟩ :: rest :
      List CleanPiece), q.modifiers = [] := by
    intro q hq
    rcases List.mem_cons.mp hq with rfl | hq
    · rfl
    · rcases List.mem_cons.mp hq with rfl | hq
      · rfl
      · exact hfree' q (List.mem_cons_of_mem _ hq)
  have hfreeWhole : ∀ q ∈ init ++ p :: ⟨.descend, d :: text, []⟩ :: rest, q.modifiers = [] := by
    intro q hq
    rw [← List.singleton_append (l := _ :: rest), ← List.append_assoc] at hq
    rcases List.mem_append.mp hq with hq | hq
    · exact hfree q hq
    · exact hfreeSlashed q (List.mem_cons_of_mem _ hq)
  have hplaced : arrange false (leading (init ++ p :: ⟨.descend, d :: text, []⟩ :: rest)).2 =
      arrange false (leading (init ++ [p])).2 ++
        ⟨⟨.descend, d :: text, []⟩, false, false⟩ :: arrange false rest :=
    arrange_leading_append hp init _
  refine ⟨(leading (init ++ [p])).1, arrange false (leading (init ++ [p])).2,
    ⟨⟨.descend, d :: text, []⟩, false, false⟩, arrange false rest, ?_, ?_, ?_, ?_, ?_, rfl, ?_⟩
  · rw [parseQuery_eq, hpieces]
    exact congrArg Except.ok (ofPieces_of_free hfree)
  · rw [parseQuery_eq, hslashed]
    exact congrArg Except.ok (ofPieces_of_free hfreeSlashed)
  · rw [parseQuery_eq, hwhole, ← hplaced, ← congrArg Prod.fst (leading_append hp _)]
    exact congrArg Except.ok (ofPieces_of_free hfreeWhole)
  · exact arrange_leading_ne_nil hp init
  · intro q hq
    rw [← hplaced] at hq
    exact hfreeWhole _ (mem_of_mem_leading (mem_of_mem_arrange hq))
  · exact splitSymbol_ne_page hblank hpage

end SceneSearch.QueryPlan
