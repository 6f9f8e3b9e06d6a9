import SceneSearch.Proofs.Query.Extraction
import SceneSearch.Proofs.Query.Plan
import SceneSearch.Proofs.Traversal

/-!
# Cutting queries that are put together

A query that goes on with a slash behind another one is cut at that slash, provided the first one
leaves no quote open and does not end in a slash itself. So its pieces are those of the first query
and then those of the rest; this is `cleanPieces_append`. Blanks where the two meet belong to the
pieces beside the slash, and are cut from these with the modifiers.
-/

namespace SceneSearch

namespace Piece

variable {separator : Separator} {inside : Bool} {done s t : List Char} {c : Char}

/-! ## One character more -/

theorem cut_nil : cut separator inside done [] = [⟨separator, done.reverse⟩] := by
  rw [cut]

theorem cut_quote (s : List Char) :
    cut separator inside done ('"' :: s) = cut separator (!inside) ('"' :: done) s := by
  rw [cut]

theorem cut_direct (s : List Char) :
    cut separator false done ('/' :: '/' :: s) =
      ⟨separator, done.reverse⟩ :: cut .direct false [] s := by
  rw [cut, if_neg Bool.false_ne_true]

theorem cut_slash (h : s.head? ≠ some '/') :
    cut separator inside done ('/' :: s) =
      if inside then cut separator inside ('/' :: done) s
      else ⟨separator, done.reverse⟩ :: cut .descend false [] s := by
  rw [cut]
  rintro rest rfl
  exact h rfl

theorem cut_descend (h : s.head? ≠ some '/') :
    cut separator false done ('/' :: s) =
      ⟨separator, done.reverse⟩ :: cut .descend false [] s := by
  rw [cut_slash h, if_neg Bool.false_ne_true]

theorem cut_letter (hquote : c ≠ '"') (hslash : c ≠ '/') (s : List Char) :
    cut separator inside done (c :: s) = cut separator inside (c :: done) s := by
  rw [cut]
  · exact hquote
  · rintro _ rfl
    exact absurd rfl hslash
  · exact hslash

theorem cut_literal (h : c ≠ '"') (s : List Char) :
    cut separator true done (c :: s) = cut separator true (c :: done) s := by
  by_cases hslash : c = '/'
  · subst hslash
    -- two slashes are gone through in one step
    induction s generalizing done with
    | nil => rw [cut_slash (by simp), if_pos rfl]
    | cons d rest ih =>
      by_cases hd : d = '/'
      · subst hd
        rw [cut, if_pos rfl, ih]
      · rw [cut_slash (by simpa using hd), if_pos rfl]
  · exact cut_letter h hslash s

/-- What holds of the end of every text, and of a text if it holds of what is behind its first
character or separator, holds of every text. -/
@[elab_as_elim]
theorem cut_induction {motive : Bool → List Char → Prop} (nil : ∀ inside, motive inside [])
    (quote : ∀ inside s, motive (!inside) s → motive inside ('"' :: s))
    (literal : ∀ c s, c ≠ '"' → motive true s → motive true (c :: s))
    (letter : ∀ c s, c ≠ '"' → c ≠ '/' → motive false s → motive false (c :: s))
    (direct : ∀ s, motive false s → motive false ('/' :: '/' :: s))
    (descend : ∀ s, s.head? ≠ some '/' → motive false s → motive false ('/' :: s))
    (inside : Bool) (s : List Char) : motive inside s := by
  induction hn : s.length using Nat.strongRecOn generalizing inside s with
  | ind n ih =>
    subst hn
    rcases s with _ | ⟨c, s⟩
    · exact nil inside
    · have hs : ∀ inside, motive inside s := fun inside ↦ ih s.length (by simp) inside s rfl
      by_cases hquote : c = '"'
      · subst hquote
        exact quote inside s (hs _)
      · by_cases hinside : inside = true
        · subst hinside
          exact literal c s hquote (hs true)
        · obtain rfl : inside = false := by simpa using hinside
          by_cases hslash : c = '/'
          · subst hslash
            by_cases hhead : s.head? = some '/'
            · obtain ⟨u, rfl⟩ := List.head?_eq_some_iff.mp hhead
              exact direct u (ih u.length (by simp only [List.length_cons]; omega) false u rfl)
            · exact descend s hhead (hs false)
          · exact letter c s hquote hslash (hs false)

/-! ## Where a text goes on -/

theorem exists_cut (inside : Bool) (s : List Char) :
    ∃ text rest, ∀ separator done,
      cut separator inside done s = ⟨separator, done.reverse ++ text⟩ :: rest := by
  induction inside, s using cut_induction with
  | nil inside => exact ⟨[], [], fun separator done ↦ by rw [cut_nil, List.append_nil]⟩
  | quote inside s ih =>
    obtain ⟨text, rest, h⟩ := ih
    exact ⟨'"' :: text, rest, fun separator done ↦ by rw [cut_quote, h]; simp⟩
  | literal c s hc ih =>
    obtain ⟨text, rest, h⟩ := ih
    exact ⟨c :: text, rest, fun separator done ↦ by rw [cut_literal hc, h]; simp⟩
  | letter c s hquote hslash ih =>
    obtain ⟨text, rest, h⟩ := ih
    exact ⟨c :: text, rest, fun separator done ↦ by rw [cut_letter hquote hslash, h]; simp⟩
  | direct s _ =>
    exact ⟨[], cut .direct false [] s, fun separator done ↦ by rw [cut_direct, List.append_nil]⟩
  | descend s hs _ =>
    exact ⟨[], cut .descend false [] s, fun separator done ↦ by
      rw [cut_descend hs, List.append_nil]⟩

theorem exists_cut_cons (inside : Bool) (hslash : c ≠ '/') (s : List Char) :
    ∃ text rest, ∀ separator done,
      cut separator inside done (c :: s) = ⟨separator, done.reverse ++ c :: text⟩ :: rest := by
  by_cases hquote : c = '"'
  · subst hquote
    obtain ⟨text, rest, h⟩ := exists_cut (!inside) s
    exact ⟨text, rest, fun separator done ↦ by rw [cut_quote, h]; simp⟩
  · obtain ⟨text, rest, h⟩ := exists_cut inside s
    exact ⟨text, rest, fun separator done ↦ by rw [cut_letter hquote hslash, h]; simp⟩

private theorem cut_of_not_mem (h : '/' ∉ t) :
    cut separator inside done t = [⟨separator, done.reverse ++ t⟩] := by
  induction t generalizing inside done with
  | nil => rw [cut_nil, List.append_nil]
  | cons c rest ih =>
    obtain ⟨hc, hrest⟩ := not_or.mp (List.mem_cons.not.mp h)
    by_cases hquote : c = '"'
    · subst hquote
      rw [cut_quote, ih hrest]
      simp
    · rw [cut_letter hquote (Ne.symm hc), ih hrest]
      simp

theorem openAfter_reverse_cons (hdone : openAfter false done.reverse = inside) (c : Char) :
    openAfter false (c :: done).reverse = openAfter inside [c] := by
  rw [List.reverse_cons, openAfter_append, hdone]

private theorem head?_append_ne (hs : s.head? ≠ some '/') (ht : '/' ∉ t) :
    (s ++ t).head? ≠ some '/' := by
  rcases s with _ | ⟨c, s⟩
  · exact fun h ↦ ht (List.mem_of_mem_head? h)
  · exact hs

theorem exists_cut_append (separator : Separator) (done s : List Char) (ht : '/' ∉ t)
    (hdone : openAfter false done.reverse = inside) :
    ∃ init last text, cut separator inside done s = init ++ [⟨last, text⟩] ∧
      cut separator inside done (s ++ t) = init ++ [⟨last, text ++ t⟩] ∧
      openAfter false text = openAfter inside s := by
  induction inside, s using cut_induction generalizing separator done with
  | nil inside =>
    exact ⟨[], separator, done.reverse, cut_nil, cut_of_not_mem ht, hdone⟩
  | quote inside s ih =>
    rw [List.cons_append, cut_quote, cut_quote]
    exact ih separator _ (openAfter_reverse_cons hdone '"')
  | literal c s hc ih =>
    rw [List.cons_append, cut_literal hc, cut_literal hc, openAfter_cons hc]
    exact ih separator _ ((openAfter_reverse_cons hdone c).trans (openAfter_cons hc _ _))
  | letter c s hquote hslash ih =>
    rw [List.cons_append, cut_letter hquote hslash, cut_letter hquote hslash,
      openAfter_cons hquote]
    exact ih separator _ ((openAfter_reverse_cons hdone c).trans (openAfter_cons hquote _ _))
  | direct s ih =>
    obtain ⟨init, last, text, h, happend, hopen⟩ := ih .direct [] (openAfter_nil false)
    refine ⟨⟨separator, done.reverse⟩ :: init, last, text, ?_, ?_, hopen⟩
    · rw [cut_direct, h, List.cons_append]
    · rw [List.cons_append, List.cons_append, cut_direct, happend, List.cons_append]
  | descend s hs ih =>
    obtain ⟨init, last, text, h, happend, hopen⟩ := ih .descend [] (openAfter_nil false)
    refine ⟨⟨separator, done.reverse⟩ :: init, last, text, ?_, ?_, hopen⟩
    · rw [cut_descend hs, h, List.cons_append]
    · rw [List.cons_append, cut_descend (head?_append_ne hs ht), happend, List.cons_append]

theorem getLast?_ne_of_cons (h : (c :: s).getLast? ≠ some '/') : s.getLast? ≠ some '/' := by
  rcases s with _ | ⟨d, s⟩
  · simp
  · rwa [List.getLast?_cons_cons] at h

/-- **What goes on with a slash is cut there**, if no quote is open and no other slash stands in
front of it. -/
theorem cut_append (hclosed : openAfter inside s = false) (hlast : s.getLast? ≠ some '/') :
    cut separator inside done (s ++ '/' :: t) =
      cut separator inside done s ++ (cut .start false [] ('/' :: t)).tail := by
  induction inside, s using cut_induction generalizing separator done with
  | nil inside =>
    obtain rfl : inside = false := hclosed
    rw [List.nil_append, cut_nil]
    by_cases hhead : t.head? = some '/'
    · obtain ⟨u, rfl⟩ := List.head?_eq_some_iff.mp hhead
      rw [cut_direct, cut_direct, List.tail_cons, List.singleton_append]
    · rw [cut_descend hhead, cut_descend hhead, List.tail_cons, List.singleton_append]
  | quote inside s ih =>
    rw [List.cons_append, cut_quote, cut_quote]
    exact ih hclosed (getLast?_ne_of_cons hlast)
  | literal c s hc ih =>
    rw [openAfter_cons hc] at hclosed
    rw [List.cons_append, cut_literal hc, cut_literal hc]
    exact ih hclosed (getLast?_ne_of_cons hlast)
  | letter c s hquote hslash ih =>
    rw [openAfter_cons hquote] at hclosed
    rw [List.cons_append, cut_letter hquote hslash, cut_letter hquote hslash]
    exact ih hclosed (getLast?_ne_of_cons hlast)
  | direct s ih =>
    have hrest := @ih .direct [] hclosed (getLast?_ne_of_cons (getLast?_ne_of_cons hlast))
    rw [List.cons_append, List.cons_append, cut_direct, cut_direct, hrest, List.cons_append]
  | descend s hs ih =>
    have hrest := @ih .descend [] hclosed (getLast?_ne_of_cons hlast)
    have hhead : (s ++ '/' :: t).head? ≠ some '/' := by
      rcases s with _ | ⟨d, s⟩
      · exact absurd rfl hlast
      · exact hs
    rw [List.cons_append, cut_descend hhead, cut_descend hs, hrest, List.cons_append]

end Piece

namespace QueryPlan

open Modifier

variable {query : String} {s blanks : List Char}

/-! ## Pieces without their modifiers -/

/-- The pieces of a text without their modifiers. -/
def cleanCut (s : List Char) : Except TooManyDigits (List CleanPiece) :=
  (Piece.cut .start false [] s).mapM CleanPiece.ofPiece

theorem cleanPieces_eq (query : String) : cleanPieces query = cleanCut (trim query.toList) := by
  rw [cleanPieces, Piece.split, String.toList_ofList]
  rfl

theorem slash_not_mem_blanks (h : ∀ c ∈ blanks, isBlank c = true) : '/' ∉ blanks := fun hmem ↦
  absurd (h '/' hmem) (by decide)

theorem cleanCut_append_blanks (hclosed : openAfter false s = false)
    (h : ∀ c ∈ blanks, isBlank c = true) : cleanCut (s ++ blanks) = cleanCut s := by
  obtain ⟨init, last, text, hs, happend, hopen⟩ :=
    Piece.exists_cut_append .start [] s (slash_not_mem_blanks h) (openAfter_nil false)
  have hpiece : CleanPiece.ofPiece ⟨last, text ++ blanks⟩ = CleanPiece.ofPiece ⟨last, text⟩ := by
    rw [CleanPiece.ofPiece, extract_append_blanks (hopen.trans hclosed) h]
    rfl
  rw [cleanCut, cleanCut, hs, happend, List.mapM_append, List.mapM_append, List.mapM_cons,
    List.mapM_cons, hpiece]

theorem cleanCut_slash (t : List Char) :
    cleanCut ('/' :: t) = ((Piece.cut .start false [] ('/' :: t)).tail.mapM CleanPiece.ofPiece).map
      fun rest ↦ ⟨.start, [], []⟩ :: rest := by
  have hcut : Piece.cut .start false [] ('/' :: t) =
      ⟨.start, []⟩ :: (Piece.cut .start false [] ('/' :: t)).tail :=
    @Piece.cut_append .start false [] [] t rfl (by simp)
  rw [cleanCut, hcut, List.mapM_cons, List.tail_cons]
  rcases List.mapM CleanPiece.ofPiece (Piece.cut .start false [] ('/' :: t)).tail with
    cause | rest <;> rfl

theorem cleanCut_append {t : List Char} (hclosed : openAfter false s = false)
    (hlast : s.getLast? ≠ some '/') :
    cleanCut (s ++ '/' :: t) =
      (cleanCut s).bind fun pieces ↦
        (cleanCut ('/' :: t)).map fun more ↦ pieces ++ more.tail := by
  rw [cleanCut_slash, cleanCut, Piece.cut_append hclosed hlast, List.mapM_append, ← cleanCut]
  rcases cleanCut s with cause | pieces
  · rfl
  · rcases List.mapM CleanPiece.ofPiece (Piece.cut .start false [] ('/' :: t)).tail with
      cause | rest <;> rfl

/-- **Queries put together**: where the second one starts with a slash, its pieces follow those of
the first one. -/
theorem cleanPieces_append {next : String} (hclosed : Even (query.toList.count '"'))
    (hlast : (trim query.toList).getLast? ≠ some '/') (hnext : next.toList.head? = some '/') :
    cleanPieces (query ++ next) =
      (cleanPieces query).bind fun pieces ↦
        (cleanPieces next).map fun more ↦ pieces ++ more.tail := by
  obtain ⟨t, ht⟩ := List.head?_eq_some_iff.mp hnext
  obtain ⟨front, hfront, hquery⟩ := exists_trimStart query.toList
  obtain ⟨back, hback, hstart⟩ := exists_trimEnd (trimStart query.toList)
  have hslash : isBlank '/' = false := by decide
  -- what is left of both are the first one without the blanks in front, and the second one without
  -- those behind it
  have hwhole : trim (query ++ next).toList = trimStart query.toList ++ '/' :: trimEnd t := by
    rw [String.toList_append, ht, trim, trimStart_append_cons hslash, trimEnd_append_cons hslash]
  have htrim : trim next.toList = '/' :: trimEnd t := by rw [ht, trim_cons hslash]
  have htrimmed : openAfter false (trim query.toList) = false := by
    rw [openAfter_trim, openAfter_eq_false_iff]
    exact hclosed
  have hopen : openAfter false (trimStart query.toList) = false := by
    rw [hstart, openAfter_append, openAfter_blanks hback]
    exact htrimmed
  have hends : (trimStart query.toList).getLast? ≠ some '/' := by
    rw [hstart, List.getLast?_append]
    intro h
    rcases Option.or_eq_some_iff.mp h with hblank | ⟨-, hlast'⟩
    · exact slash_not_mem_blanks hback (List.mem_of_getLast? hblank)
    · exact hlast hlast'
  have hcut : cleanCut (trimStart query.toList) = cleanCut (trim query.toList) := by
    rw [hstart]
    exact cleanCut_append_blanks htrimmed hback
  rw [cleanPieces_eq, cleanPieces_eq, cleanPieces_eq, hwhole, htrim, cleanCut_append hopen hends,
    hcut]

/-! ## Queries without modifiers -/

/-- No piece of the query has a modifier. -/
def ModifierFree (query : String) : Prop :=
  ∃ pieces, cleanPieces query = .ok pieces ∧ ∀ p ∈ pieces, p.modifiers = []

theorem ofPiece_of_modifiers_eq_nil {piece : Piece} {p : CleanPiece}
    (h : CleanPiece.ofPiece piece = .ok p) (hnone : p.modifiers = []) :
    p = ⟨piece.separator, trim piece.text, []⟩ := by
  rw [CleanPiece.ofPiece] at h
  rcases hextract : extract piece.text with cause | e
  · rw [hextract] at h
    cases h
  · rw [hextract] at h
    obtain rfl := Except.ok.inj h
    rw [← text_of_extract hextract hnone, ← hnone]

/-- A query that does not end in a slash has something in its last piece. -/
theorem exists_last {pieces : List CleanPiece} (h : cleanPieces query = .ok pieces)
    (hfree : ∀ p ∈ pieces, p.modifiers = []) (hne : trim query.toList ≠ [])
    (hlast : (trim query.toList).getLast? ≠ some '/') :
    ∃ init p, pieces = init ++ [p] ∧ p.text ≠ [] := by
  obtain ⟨s, c, hblank, htrim⟩ := exists_trim_eq_append hne
  have hslash : '/' ∉ [c] := by
    intro hmem
    obtain rfl := List.mem_singleton.mp hmem
    exact hlast (htrim ▸ List.getLast?_concat)
  obtain ⟨front, last, text, -, hcut, -⟩ :=
    Piece.exists_cut_append .start [] s hslash (openAfter_nil false)
  rw [cleanPieces_eq, htrim, cleanCut, hcut] at h
  obtain ⟨init, _, -, hpiece, rfl⟩ := exists_of_mapM_append h
  obtain ⟨p, hp, rfl⟩ := exists_of_mapM_singleton hpiece
  refine ⟨init, p, rfl, ?_⟩
  rw [ofPiece_of_modifiers_eq_nil hp (hfree p (by simp)), trim, trimStart_append_cons hblank,
    trimEnd_append_cons hblank]
  simp

theorem cut_blanks_append {separator : Separator} {done : List Char}
    (h : ∀ c ∈ blanks, isBlank c = true) :
    Piece.cut separator false done (blanks ++ s) =
      Piece.cut separator false (blanks.reverse ++ done) s := by
  induction blanks generalizing done with
  | nil => rfl
  | cons c rest ih =>
    obtain ⟨hslash, -⟩ := not_or.mp (List.mem_cons.not.mp (slash_not_mem_blanks h))
    rw [List.cons_append, Piece.cut_letter (ne_quote_of_isBlank (h c List.mem_cons_self))
      (Ne.symm hslash), ih fun d hd ↦ h d (List.mem_cons_of_mem c hd)]
    simp

theorem ofPiece_blanks_append {separator other : Separator} (h : ∀ c ∈ blanks, isBlank c = true) :
    CleanPiece.ofPiece ⟨other, blanks ++ s⟩ =
      (CleanPiece.ofPiece ⟨separator, s⟩).map fun p ↦ { p with separator := other } := by
  rw [CleanPiece.ofPiece, CleanPiece.ofPiece, extract_blanks_append h]
  rcases extract s with cause | e <;> rfl

theorem cleanCut_blanks_append (h : ∀ c ∈ blanks, isBlank c = true) :
    cleanCut (blanks ++ s) = cleanCut s := by
  obtain ⟨text, rest, hcut⟩ := Piece.exists_cut false s
  have hpiece : CleanPiece.ofPiece ⟨.start, blanks ++ text⟩ =
      CleanPiece.ofPiece ⟨.start, text⟩ := by
    rw [CleanPiece.ofPiece, extract_blanks_append h]
    rfl
  rw [cleanCut, cleanCut, cut_blanks_append h, hcut, hcut, List.append_nil, List.reverse_reverse,
    List.reverse_nil, List.nil_append, List.mapM_cons, List.mapM_cons, hpiece]

theorem cleanPieces_eq_of_closed (hclosed : Even (query.toList.count '"')) :
    cleanPieces query = cleanCut query.toList := by
  obtain ⟨front, back, hfront, hback, hquery⟩ := exists_trim_between query.toList
  have hopen : openAfter false (trim query.toList) = false := by
    rw [openAfter_trim, openAfter_eq_false_iff]
    exact hclosed
  calc cleanPieces query = cleanCut (trim query.toList) := cleanPieces_eq query
    _ = cleanCut (trim query.toList ++ back) := (cleanCut_append_blanks hopen hback).symm
    _ = cleanCut (front ++ (trim query.toList ++ back)) := (cleanCut_blanks_append hfront).symm
    _ = cleanCut query.toList := by rw [← List.append_assoc, ← hquery]

theorem head?_blanks_append {c : Char} (h : ∀ c ∈ blanks, isBlank c = true) (hslash : c ≠ '/') :
    (blanks ++ c :: s).head? ≠ some '/' := by
  rcases blanks with _ | ⟨d, rest⟩
  · simpa using hslash
  · have hd : isBlank d = true := h d List.mem_cons_self
    intro heq
    obtain rfl : d = '/' := by simpa using heq
    exact absurd hd (by decide)

/-- A query that does not start with a slash has something in its first piece, and a slash in front
of the query is in front of that piece. -/
theorem exists_first {c : Char} {pieces : List CleanPiece} (h : cleanPieces query = .ok pieces)
    (hfree : ∀ p ∈ pieces, p.modifiers = []) (hc : (trim query.toList).head? = some c)
    (hslash : c ≠ '/') :
    ∃ text rest, pieces = ⟨.start, c :: text, []⟩ :: rest ∧
      cleanPieces ("/" ++ query) =
        .ok (⟨.start, [], []⟩ :: ⟨.descend, c :: text, []⟩ :: rest) := by
  have hne : trim query.toList ≠ [] := by
    intro hnil
    rw [hnil] at hc
    cases hc
  obtain ⟨d, t, hblank, hstart, htrim⟩ := exists_trim hne
  rw [htrim] at hc
  obtain rfl : d = c := by simpa using hc
  obtain ⟨front, hfront, hquery⟩ := exists_trimStart query.toList
  obtain ⟨text, rest, hcut⟩ := Piece.exists_cut_cons false hslash (trimEnd t)
  rw [cleanPieces_eq, htrim, cleanCut, hcut, List.reverse_nil, List.nil_append,
    ← List.singleton_append] at h
  obtain ⟨_, ps, hpiece, hrest, rfl⟩ := exists_of_mapM_append h
  obtain ⟨p, hp, rfl⟩ := exists_of_mapM_singleton hpiece
  have hfirst : p = ⟨.start, d :: trimEnd text, []⟩ := by
    rw [ofPiece_of_modifiers_eq_nil hp (hfree p (by simp)), trim_cons hblank]
  subst hfirst
  refine ⟨trimEnd text, ps, rfl, ?_⟩
  -- the slash cuts in front of the blanks that the query starts with
  have hslashed : trim ("/" ++ query).toList = '/' :: (front ++ d :: trimEnd t) := by
    rw [String.toList_append, hquery, hstart]
    exact (@trimEnd_append_cons ('/' :: front) t d hblank)
  have hbehind : Piece.cut .descend false [] (front ++ d :: trimEnd t) =
      ⟨.descend, front ++ d :: text⟩ :: rest := by
    rw [cut_blanks_append hfront, hcut, List.append_nil, List.reverse_reverse]
  rw [cleanPieces_eq, hslashed, cleanCut_slash,
    Piece.cut_descend (head?_blanks_append hfront hslash), List.tail_cons, hbehind,
    List.mapM_cons, ofPiece_blanks_append hfront, hp, hrest]
  rfl

end QueryPlan

end SceneSearch
