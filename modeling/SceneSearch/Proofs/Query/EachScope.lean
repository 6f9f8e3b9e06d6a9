import SceneSearch.Proofs.Query.Canonical
import SceneSearch.Proofs.Query.Rank

/-!
# A pick in each scope behind two queries

A query, a slash or two, and another query that is one piece, with a number and an `e` behind it:
the number stands in the last piece, which is the second query, and belongs to the last segment,
which is that of this piece. The same piece behind the slash alone is a plan of its own, with the
one segment that goes on below a selection. `exists_plans_each` puts these plans and that of the
first query side by side.

The number may have too many digits. Then there is no plan with it, whatever the queries are:
`length_le_of_parseQuery_number`.
-/

namespace SceneSearch

/-- A text that is one piece without modifiers: its quotes come in pairs, its slashes stand in
quotes, and it is not blank. -/
structure SinglePiece (text : String) : Prop where
  /-- No quote is left open. -/
  closed : Even (text.toList.count '"')
  /-- In front of a slash a quote is open. -/
  slashes_quoted : ∀ before after, text.toList = before ++ '/' :: after → ¬Even (before.count '"')
  /-- There is no modifier. -/
  free : QueryPlan.ModifierFree text
  /-- There is something else than blanks. -/
  filled : trim text.toList ≠ []

theorem SinglePiece.closed_slashed {text : String} (h : SinglePiece text)
    (separator : Separator) :
    Even ((String.ofList separator.spelling ++ text).toList.count '"') := by
  rw [String.toList_append, String.toList_ofList, List.count_append,
    List.count_eq_zero_of_not_mem (Piece.quote_not_mem_spelling separator), Nat.zero_add]
  exact h.closed

namespace QueryPlan

open Modifier

variable {first second suffix query : String} {separator : Separator} {n : Nat}
  {init pieces : List CleanPiece} {p : CleanPiece} {plan : QueryPlan}

/-- The suffix that picks the match of a rank in each scope. -/
def eachSuffix (n : Nat) : String := " --" ++ toString n ++ "e"

theorem toList_eachSuffix (n : Nat) : (eachSuffix n).toList = ' ' :: numberWord true n := by
  rw [eachSuffix, String.toList_append, String.toList_append, numberWord, eachMark, if_pos rfl]
  rfl

theorem spells_eachSuffix (h : (toString n).length ≤ digitLimit) :
    Spells (eachSuffix n) (.indexEach n) :=
  @spells_number _ true n (toList_eachSuffix n) h

/-! ## Numbers with too many digits -/

/-- What is taken out of the last piece of a query is taken out of its end. -/
theorem exists_takeAlong_suffix (hstarts : StartsBlank suffix.toList) (hslash : '/' ∉ suffix.toList)
    (hquote : '"' ∉ suffix.toList) (hclosed : Even (query.toList.count '"'))
    (h : cleanPieces (query ++ suffix) = .ok pieces) :
    ∃ e, takeAlong false [] suffix.toList = .ok e := by
  have hclosed' : Even ((query ++ suffix).toList.count '"') := by
    rw [String.toList_append, List.count_append, List.count_eq_zero_of_not_mem hquote]
    exact hclosed
  obtain ⟨front, last, text, -, hcut, hopen⟩ :=
    Piece.exists_cut_append .start [] query.toList hslash (openAfter_nil false)
  rw [openAfter_eq_false_iff.mpr hclosed] at hopen
  rw [cleanPieces_eq_of_closed hclosed', String.toList_append, cleanCut, hcut] at h
  obtain ⟨_, _, -, hlast, rfl⟩ := exists_of_mapM_append h
  obtain ⟨p, hp, rfl⟩ := exists_of_mapM_singleton hlast
  rw [CleanPiece.ofPiece, extract_eq, takeAlong_append hopen hstarts] at hp
  rcases hjoin : join (takeAlong false [] text) (takeAlong false [] suffix.toList) with cause | e
  · rw [hjoin] at hp
    cases hp
  · obtain ⟨-, e', -, he', -⟩ := exists_of_join hjoin
    exact ⟨e', he'⟩

/-- A query with a number behind it has no plan if the number has too many digits. -/
theorem length_le_of_parseQuery_number {each : Bool}
    (hsuffix : suffix.toList = ' ' :: numberWord each n) (hclosed : Even (query.toList.count '"'))
    (h : parseQuery (query ++ suffix) = .ok plan) : (toString n).length ≤ digitLimit := by
  obtain ⟨pieces, hpieces, -⟩ := exists_ofPieces h
  have hword := plain_of_mem_numberWord each n
  have hstarts : StartsBlank suffix.toList := by
    rw [hsuffix]
    rintro c ⟨⟩
    rfl
  have hnone : '/' ∉ suffix.toList ∧ '"' ∉ suffix.toList := by
    rw [hsuffix, List.mem_cons, List.mem_cons, not_or, not_or]
    exact ⟨⟨by decide, fun hmem ↦ (hword _ hmem).2.1 rfl⟩, by decide,
      fun hmem ↦ (hword _ hmem).1 rfl⟩
  obtain ⟨e, he⟩ := exists_takeAlong_suffix hstarts hnone.1 hnone.2 hclosed hpieces
  rw [hsuffix, takeAlong_blank (by decide),
    takeAlong_word fun c hc ↦ ⟨(hword c hc).1, (hword c hc).2.2⟩, List.append_nil,
    ending_numberWord] at he
  by_contra hlong
  rw [naturalOfDigits_eq_error (by rw [String.length_toList]; omega)] at he
  cases he

theorem length_le_of_parseQuery (hclosed : Even (query.toList.count '"'))
    (h : parseQuery (query ++ eachSuffix n) = .ok plan) : (toString n).length ≤ digitLimit :=
  length_le_of_parseQuery_number (toList_eachSuffix n) hclosed h

/-! ## Pieces -/

private theorem cleanPieces_slashed (h : SinglePiece second) (hseparator : separator ≠ .start) :
    cleanPieces (String.ofList separator.spelling ++ second) =
      .ok [⟨.start, [], []⟩, ⟨separator, trim second.toList, []⟩] := by
  have hquoted : Piece.SlashesQuoted second.toList := by
    intro before after hslash
    have hodd := h.slashes_quoted before after hslash
    rw [← openAfter_eq_false_iff] at hodd
    simpa using hodd
  have hcut := @Piece.SlashesQuoted.cut_append_spelling .start [] second.toList separator
    Piece.slashesQuoted_nil rfl hseparator fun _ ↦ hquoted.head?_ne
  rw [List.nil_append, hquoted.cut_eq] at hcut
  obtain ⟨pieces, hpieces, hfree⟩ := h.free
  rw [cleanPieces_eq_of_closed h.closed, cleanCut, hquoted.cut_eq] at hpieces
  obtain ⟨p, hp, rfl⟩ := exists_of_mapM_singleton hpieces
  have hp' : CleanPiece.ofPiece ⟨separator, second.toList⟩ =
      .ok ⟨separator, trim second.toList, []⟩ := by
    have hblanks := @ofPiece_blanks_append second.toList [] .start separator
      fun _ h ↦ absurd h List.not_mem_nil
    rw [List.nil_append, hp] at hblanks
    rw [hblanks, ofPiece_of_modifiers_eq_nil hp (hfree p List.mem_cons_self)]
    rfl
  rw [cleanPieces_eq_of_closed (h.closed_slashed separator), String.toList_append,
    String.toList_ofList, cleanCut, hcut, List.mapM_cons, List.mapM_cons, hp']
  rfl

/-! ## Plans -/

/-- The modifiers of a query with nothing but a pick in each scope at its end. -/
theorem modifiersOf_marked_indexEach (hfree : ∀ q ∈ init, q.modifiers = [])
    (hp : p.modifiers = []) :
    modifiersOf (init ++ [p.marked (.indexEach n)]) = { indexEach := some n } := by
  rw [modifiersOf_append_singleton hfree, CleanPiece.marked, hp]
  rfl

private theorem head?_slashed (h : separator ≠ .start) (text : String) :
    (String.ofList separator.spelling ++ text).toList.head? = some '/' := by
  rw [String.toList_append, String.toList_ofList]
  cases separator with
  | start => exact absurd rfl h
  | descend => rfl
  | direct => rfl

private theorem cleanPieces_concat_suffix {w : Modifier} (h : Spells suffix w)
    (hpieces : cleanPieces query = .ok (init ++ [p])) (hclosed : Even (query.toList.count '"')) :
    cleanPieces (query ++ suffix) = .ok (init ++ [p.marked w]) := by
  obtain ⟨init', p', heq, hmarked⟩ := cleanPieces_append_suffix h hpieces hclosed
  obtain ⟨rfl, hp⟩ := List.append_inj' heq rfl
  rw [hmarked, List.singleton_inj.mp hp]

/-- **Plans with a pick in each scope.** The plan of the first query behind which the second one
stands has the segments of the first one, and then the segment that the second one has behind a
slash alone. -/
theorem exists_plans_each (hfirst : ModifierFree first) (hclosed : Even (first.toList.count '"'))
    (hne : trim first.toList ≠ []) (hlast : (trim first.toList).getLast? ≠ some '/')
    (hsecond : SinglePiece second) (hmark : (trim second.toList).head? ≠ some '#')
    (hseparator : separator ≠ .start) (hdigits : (toString n).length ≤ digitLimit) :
    ∃ childSearch front piece, parseQuery first = .ok (plain first childSearch front) ∧
      parseQuery (String.ofList separator.spelling ++ second ++ eachSuffix n) =
        .ok (assembled (String.ofList separator.spelling ++ second ++ eachSuffix n)
          { indexEach := some n } true [piece]) ∧
      parseQuery (first ++ (String.ofList separator.spelling ++ second) ++ eachSuffix n) =
        .ok (assembled (first ++ (String.ofList separator.spelling ++ second) ++ eachSuffix n)
          { indexEach := some n } childSearch (front ++ [piece])) ∧
      front ≠ [] ∧ (∀ p ∈ front, p.piece.modifiers = []) ∧
      (segmentOf { indexEach := some n } piece true true).symbol ≠ .page := by
  obtain ⟨pieces, hpieces, hfree⟩ := hfirst
  obtain ⟨init, p, rfl, hp⟩ := exists_last hpieces hfree hne hlast
  have hslashed : cleanPieces (String.ofList separator.spelling ++ second) =
      .ok ([⟨.start, [], []⟩] ++ [⟨separator, trim second.toList, []⟩]) :=
    cleanPieces_slashed hsecond hseparator
  have hspells := spells_eachSuffix hdigits
  -- the second query behind its slashes, and behind the first one, both with the number
  have hsecond' := cleanPieces_concat_suffix hspells hslashed (hsecond.closed_slashed separator)
  have hwhole : cleanPieces (first ++ (String.ofList separator.spelling ++ second)) =
      .ok ((init ++ [p]) ++ [⟨separator, trim second.toList, []⟩]) := by
    rw [cleanPieces_append hclosed hlast (head?_slashed hseparator second), hpieces, hslashed]
    rfl
  have hclosed' :
      Even ((first ++ (String.ofList separator.spelling ++ second)).toList.count '"') := by
    rw [String.toList_append, List.count_append]
    exact hclosed.add (hsecond.closed_slashed separator)
  have hwhole' := cleanPieces_concat_suffix hspells hwhole hclosed'
  have hempty : (trim second.toList).isEmpty = false := by simpa using hsecond.filled
  refine ⟨(leading (init ++ [p])).1, arrange false (leading (init ++ [p])).2,
    ⟨⟨separator, trim second.toList, [.indexEach n]⟩, separator == .direct, false⟩, ?_, ?_, ?_,
    arrange_leading_ne_nil hp init, ?_, ?_⟩
  · rw [parseQuery_eq, hpieces]
    exact congrArg Except.ok (ofPieces_of_free hfree)
  · rw [parseQuery_eq, hsecond', Except.map, ofPieces_eq,
      modifiersOf_marked_indexEach (by simp) rfl]
    simp [leading, arrange, hempty, CleanPiece.marked]
  · rw [parseQuery_eq, hwhole', Except.map, ofPieces_eq, modifiersOf_marked_indexEach hfree rfl,
      List.append_assoc, List.singleton_append, arrange_leading_append hp, leading_append hp]
    simp [arrange, hempty, CleanPiece.marked]
  · intro q hq
    exact hfree _ (mem_of_mem_leading (mem_of_mem_arrange hq))
  · obtain ⟨c, t, hblank, -, htrim⟩ := exists_trim hsecond.filled
    rw [htrim] at hmark ⊢
    exact splitSymbol_ne_page hblank (by simpa using hmark)

end QueryPlan

end SceneSearch
