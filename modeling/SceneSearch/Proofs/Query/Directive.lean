import SceneSearch.Proofs.Query.Continuation

/-!
# Plans of queries behind a page directive

A page directive is one piece: it starts with `#`, and its slashes, if it has any, stand in quotes.
So a query behind a slash that goes on behind a directive has the pieces that it has alone, except
for the empty one in front of its slash, in whose place the directive stands. `exists_plans_below`
compares the two plans. They have the same modifiers, and their segments come from the same pieces;
what the directive changes is that none of these is the first one any more, and that the search does
not start below a selection.
-/

namespace SceneSearch

/-! ## Directives -/

/-- A text that names a page, and does nothing else: it starts with `#`, its quotes come in pairs,
its slashes stand in quotes, and it has no modifier. -/
structure PageDirective (text : String) : Prop where
  /-- The symbol of pages is in front. -/
  marked : text.toList.head? = some '#'
  /-- No quote is left open. -/
  closed : Even (text.toList.count '"')
  /-- In front of a slash a quote is open. -/
  slashes_quoted : ∀ before after, text.toList = before ++ '/' :: after → ¬Even (before.count '"')
  /-- There is no modifier. -/
  free : QueryPlan.ModifierFree text

/-- What the name of a page has to match. -/
def pageQuery (text : String) : String := String.ofList (splitSymbol text.toList).2

/-! ## Blanks that are cut twice -/

theorem trim_trim (s : List Char) : trim (trim s) = trim s := by
  by_cases hne : trim s = []
  · rw [hne]
    rfl
  · obtain ⟨c, t, hfirst, -, htrim⟩ := exists_trim hne
    obtain ⟨init, d, hlast, hends⟩ := exists_trim_eq_append hne
    have hstart : trimStart (trim s) = trim s := by
      rw [htrim, trimStart_of_not_blank _ hfirst]
    rw [trim, hstart, hends, trimEnd_of_not_blank init hlast]

private theorem splitSymbol_trim (s : List Char) : splitSymbol (trim s) = splitSymbol s := by
  rw [splitSymbol, trim_trim, ← splitSymbol]

/-! ## Pieces -/

namespace Piece

variable {separator : Separator} {inside : Bool} {done s : List Char} {p : Piece}

theorem cut_of_slashes_quoted
    (h : ∀ before after, s = before ++ '/' :: after → openAfter inside before = true) :
    cut separator inside done s = [⟨separator, done.reverse ++ s⟩] := by
  have hnext : ∀ {inside : Bool} {c : Char} {s : List Char},
      (∀ before after, c :: s = before ++ '/' :: after → openAfter inside before = true) →
      ∀ before after, s = before ++ '/' :: after →
        openAfter (openAfter inside [c]) before = true := by
    rintro inside c _ h before after rfl
    rw [← openAfter_append]
    exact h (c :: before) after rfl
  induction inside, s using cut_induction generalizing separator done with
  | nil inside => rw [cut_nil, List.append_nil]
  | quote inside s ih =>
    rw [cut_quote, ih (hnext h)]
    simp
  | literal c s hc ih =>
    have hrest := hnext h
    rw [openAfter_cons hc] at hrest
    rw [cut_literal hc, ih hrest]
    simp
  | letter c s hquote hslash ih =>
    have hrest := hnext h
    rw [openAfter_cons hquote] at hrest
    rw [cut_letter hquote hslash, ih hrest]
    simp
  | direct s _ => exact absurd (h [] ('/' :: s) rfl) Bool.false_ne_true
  | descend s _ _ => exact absurd (h [] s rfl) Bool.false_ne_true

theorem separator_of_mem_cut (h : p ∈ cut separator inside done s) :
    p.separator = separator ∨ p.separator ≠ .start := by
  induction inside, s using cut_induction generalizing separator done with
  | nil inside =>
    obtain rfl := List.mem_singleton.mp h
    exact Or.inl rfl
  | quote inside s ih => exact ih (cut_quote s ▸ h)
  | literal c s hc ih => exact ih (cut_literal hc s ▸ h)
  | letter c s hquote hslash ih => exact ih (cut_letter hquote hslash s ▸ h)
  | direct s ih =>
    rw [cut_direct] at h
    rcases List.mem_cons.mp h with rfl | h
    · exact Or.inl rfl
    · refine Or.inr ((ih h).elim (fun heq ↦ ?_) id)
      rw [heq]
      nofun
  | descend s hs ih =>
    rw [cut_descend hs] at h
    rcases List.mem_cons.mp h with rfl | h
    · exact Or.inl rfl
    · refine Or.inr ((ih h).elim (fun heq ↦ ?_) id)
      rw [heq]
      nofun

/-- Behind a slash there is a piece, and every piece there has a slash in front. -/
theorem cut_slash_tail (s : List Char) :
    (cut .start false [] ('/' :: s)).tail ≠ [] ∧
      ∀ p ∈ (cut .start false [] ('/' :: s)).tail, p.separator ≠ .start := by
  have hbehind : ∀ {separator : Separator} {u : List Char}, separator ≠ .start →
      cut separator false [] u ≠ [] ∧ ∀ p ∈ cut separator false [] u, p.separator ≠ .start := by
    intro separator u hseparator
    obtain ⟨text, rest, hcut⟩ := exists_cut false u
    refine ⟨?_, fun p hp ↦ (separator_of_mem_cut hp).elim (fun heq ↦ heq ▸ hseparator) id⟩
    rw [hcut]
    exact List.cons_ne_nil _ _
  by_cases hhead : s.head? = some '/'
  · obtain ⟨u, rfl⟩ := List.head?_eq_some_iff.mp hhead
    rw [cut_direct, List.tail_cons]
    exact hbehind (by nofun)
  · rw [cut_descend hhead, List.tail_cons]
    exact hbehind (by nofun)

end Piece

namespace QueryPlan

variable {pieces : List CleanPiece} {p : CleanPiece} {query next raw : String} {plan : QueryPlan}

theorem map_separator_of_mapM {cutPieces : List Piece}
    (h : cutPieces.mapM CleanPiece.ofPiece = .ok pieces) :
    pieces.map CleanPiece.separator = cutPieces.map Piece.separator := by
  induction cutPieces generalizing pieces with
  | nil =>
    obtain rfl := Except.ok.inj h
    rfl
  | cons piece rest ih =>
    rw [← List.singleton_append] at h
    obtain ⟨_, more, hpiece, hmore, rfl⟩ := exists_of_mapM_append h
    obtain ⟨p, hp, rfl⟩ := exists_of_mapM_singleton hpiece
    have hseparator : p.separator = piece.separator := by
      rw [CleanPiece.ofPiece] at hp
      rcases hextract : Modifier.extract piece.text with cause | e
      · rw [hextract] at hp
        cases hp
      · rw [hextract] at hp
        rw [← Except.ok.inj hp]
    rw [List.singleton_append, List.map_cons, List.map_cons, hseparator, ih hmore]

/-- A query behind a slash has an empty piece, and then others with slashes in front. -/
theorem exists_pieces_of_slash (hnext : next.toList.head? = some '/')
    (h : cleanPieces next = .ok pieces) :
    ∃ rest, pieces = ⟨.start, [], []⟩ :: rest ∧ rest ≠ [] ∧ ∀ p ∈ rest, p.separator ≠ .start := by
  obtain ⟨t, ht⟩ := List.head?_eq_some_iff.mp hnext
  have hslash : isBlank '/' = false := by decide
  have htrim : trim next.toList = '/' :: trimEnd t := by rw [ht, trim_cons hslash]
  obtain ⟨hne, hslashes⟩ := Piece.cut_slash_tail (trimEnd t)
  rw [cleanPieces_eq, htrim, cleanCut_slash] at h
  rcases hrest : (Piece.cut .start false [] ('/' :: trimEnd t)).tail.mapM CleanPiece.ofPiece with
    cause | rest
  · rw [hrest] at h
    cases h
  · rw [hrest] at h
    obtain rfl := Except.ok.inj h
    have hseparators := map_separator_of_mapM hrest
    refine ⟨rest, rfl, ?_, fun p hp ↦ ?_⟩
    · rintro rfl
      exact hne (List.map_eq_nil_iff.mp hseparators.symm)
    · have hmem := List.mem_map_of_mem hp (f := CleanPiece.separator)
      rw [hseparators] at hmem
      obtain ⟨piece, hpiece, heq⟩ := List.mem_map.mp hmem
      exact heq ▸ hslashes piece hpiece

/-- Where every piece has a slash in front, the last one becomes a segment in any case. -/
theorem arrange_ne_nil (carried : Bool) (hne : pieces ≠ [])
    (h : ∀ p ∈ pieces, p.separator ≠ .start) : arrange carried pieces ≠ [] := by
  induction pieces generalizing carried with
  | nil => exact absurd rfl hne
  | cons p rest ih =>
    rw [arrange]
    split
    · exact List.cons_ne_nil _ _
    · split
      · exact List.cons_ne_nil _ _
      · rename_i hlast
        refine ih _ ?_ fun q hq ↦ h q (List.mem_cons_of_mem p hq)
        rintro rfl
        exact hlast (by simpa using h p List.mem_cons_self)

theorem modifiersOf_cons (hp : p.modifiers = []) (hne : pieces ≠ []) :
    modifiersOf (p :: pieces) = modifiersOf pieces := by
  obtain ⟨q, rest, rfl⟩ := List.exists_cons_of_ne_nil hne
  rw [modifiersOf, modifiersOf, List.flatMap_cons, hp, List.nil_append, List.getLast?_cons_cons]

theorem exists_trim_of_directive (h : PageDirective query) :
    ∃ name blanks, trim query.toList = '#' :: name ∧ (∀ c ∈ blanks, isBlank c = true) ∧
      query.toList = trim query.toList ++ blanks := by
  obtain ⟨rest, hquery⟩ := List.head?_eq_some_iff.mp h.marked
  obtain ⟨blanks, hblanks, hends⟩ := exists_trimEnd query.toList
  have hmark : isBlank '#' = false := by decide
  refine ⟨trimEnd rest, blanks, ?_, hblanks, ?_⟩
  · rw [hquery, trim_cons hmark]
  · rw [trim, hquery, trimStart_of_not_blank rest hmark, ← hquery]
    exact hends

/-- A directive does not end in a slash: no quote comes behind it, so it would be outside quotes. -/
theorem getLast?_ne_of_directive (h : PageDirective query) :
    (trim query.toList).getLast? ≠ some '/' := by
  intro hlast
  obtain ⟨init, hinit⟩ := List.getLast?_eq_some_iff.mp hlast
  obtain ⟨-, blanks, -, hblanks, hquery⟩ := exists_trim_of_directive h
  rw [hinit, List.append_assoc, List.singleton_append] at hquery
  have hclosed := h.closed
  rw [hquery, ← openAfter_eq_false_iff, openAfter_append, openAfter_cons (by decide),
    openAfter_blanks hblanks, openAfter_eq_false_iff] at hclosed
  exact h.slashes_quoted init blanks hquery hclosed

private theorem cleanPieces_of_directive (h : PageDirective query) :
    cleanPieces query = .ok [⟨.start, trim query.toList, []⟩] := by
  obtain ⟨-, blanks, -, -, hquery⟩ := exists_trim_of_directive h
  have hcut : Piece.cut .start false [] (trim query.toList) = [⟨.start, trim query.toList⟩] := by
    refine Piece.cut_of_slashes_quoted fun before after hslash ↦ ?_
    rw [hslash, List.append_assoc, List.cons_append] at hquery
    have hquoted := h.slashes_quoted before (after ++ blanks) hquery
    rw [← openAfter_eq_false_iff] at hquoted
    simpa using hquoted
  obtain ⟨pieces, hpieces, hfree⟩ := h.free
  have hsingle := hpieces
  rw [cleanPieces_eq, cleanCut, hcut] at hsingle
  obtain ⟨p, hp, rfl⟩ := exists_of_mapM_singleton hsingle
  rw [hpieces, ofPiece_of_modifiers_eq_nil hp (hfree p List.mem_cons_self), trim_trim]

/-- **Behind a directive** a query has the segments that it has alone, behind that of the directive,
and the same modifiers; only its first segment is no longer marked as first, and the search does not
start below a selection. -/
theorem exists_plans_below (h : PageDirective query) (hnext : next.toList.head? = some '/')
    (hplan : parseQuery next = .ok plan) :
    ∃ m piece placed, placed ≠ [] ∧ plan = assembled next m true placed ∧
      parseQuery (query ++ next) = .ok (assembled (query ++ next) m false (piece :: placed)) ∧
      (segmentOf m piece true false).symbol = .page ∧
      (segmentOf m piece true false).nameQuery = pageQuery query := by
  obtain ⟨name, -, htrim, -, -⟩ := exists_trim_of_directive h
  obtain ⟨pieces, hpieces, rfl⟩ := exists_ofPieces hplan
  obtain ⟨rest, rfl, hne, hslashes⟩ := exists_pieces_of_slash hnext hpieces
  have hwhole : cleanPieces (query ++ next) = .ok (⟨.start, '#' :: name, []⟩ :: rest) := by
    rw [cleanPieces_append h.closed (getLast?_ne_of_directive h) hnext,
      cleanPieces_of_directive h, hpieces, htrim]
    rfl
  have hsplit : splitSymbol ('#' :: name) = splitSymbol query.toList := by
    rw [← htrim, splitSymbol_trim]
  have hpage : (splitSymbol query.toList).1 = .page := by
    rw [splitSymbol, htrim]
    rfl
  refine ⟨modifiersOf rest, ⟨⟨.start, '#' :: name, []⟩, false, false⟩, arrange false rest,
    arrange_ne_nil false hne hslashes, ?_, ?_, ?_, ?_⟩
  · obtain ⟨q, more, rfl⟩ := List.exists_cons_of_ne_nil hne
    rw [ofPieces_eq, modifiersOf_cons rfl hne]
    rfl
  · obtain ⟨q, more, rfl⟩ := List.exists_cons_of_ne_nil hne
    rw [parseQuery_eq, hwhole]
    refine congrArg Except.ok ?_
    rw [ofPieces_eq, modifiersOf_cons rfl hne]
    rfl
  · exact (congrArg Prod.fst hsplit).trans hpage
  · exact congrArg (fun split ↦ String.ofList split.2) hsplit

end QueryPlan

end SceneSearch
