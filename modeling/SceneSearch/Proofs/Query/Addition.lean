import SceneSearch.Proofs.Query.EachScope
import SceneSearch.Proofs.Query.FirstMatch
import SceneSearch.Proofs.Query.Shape

/-!
# A modifier more

A modifier that is added at the end of a piece of a query is taken out of that piece again, and of
nothing else. So the pieces stay as they are, and one of them has a modifier more. What this changes
in the plan is said by `QueryModifiers.add`, and by the pick of the last segment: segments look at
the modifiers of their own pieces for indexes only, and the last one not even for these.
`parseQuery_add` puts this together for all kinds of modifiers. Flags may stand in any piece, since
nothing in a plan tells where they stood.

That the other pieces are not touched needs the query to be cut as before. `Piece.Separated`
describes lists of pieces that are cut where they are put together, and is kept by adding text that
has neither quotes nor slashes.
-/

namespace SceneSearch

/-! ## Pieces that are put together -/

namespace Piece

variable {p : Piece} {init rest : List Piece} {t : List Char}

/-- Texts that are cut at their separators once they are put together. -/
structure Separated (pieces : List Piece) : Prop where
  /-- Nothing stands in front of the first one, and slashes in front of the others. -/
  starts : ∃ text more, pieces = ⟨.start, text⟩ :: more ∧ ∀ p ∈ more, p.separator ≠ .start
  /-- Slashes in a text stand in quotes. -/
  quoted : ∀ p ∈ pieces, SlashesQuoted p.text
  /-- What another one follows leaves no quote open, and is not empty between two slashes. -/
  followed : ∀ p ∈ pieces.dropLast, Followed p

private theorem separated_split (query : String) : Separated (split query) where
  starts := exists_split query
  quoted p hp := @slashesQuoted_of_mem_cut .start false [] query.toList p rfl slashesQuoted_nil hp
  followed p hp := @followed_of_mem_cut .start false [] query.toList p rfl nofun hp

private theorem cut_spelling (hquoted : ∀ q ∈ p :: rest, SlashesQuoted q.text)
    (hfollowed : ∀ q ∈ (p :: rest).dropLast, Followed q)
    (hrest : ∀ q ∈ rest, q.separator ≠ .start) :
    cut p.separator false [] (p.text ++ spelling rest) = p :: rest := by
  induction rest generalizing p with
  | nil =>
    rw [spelling, List.flatMap_nil, List.append_nil]
    exact (hquoted p List.mem_cons_self).cut_eq
  | cons q rest ih =>
    rw [List.dropLast_cons_of_ne_nil (List.cons_ne_nil q rest)] at hfollowed
    have hq : SlashesQuoted q.text := hquoted q (by simp)
    -- behind one slash nothing but the end of the text is empty, so no other slash comes next
    have hhead : q.separator = .descend → (q.text ++ spelling rest).head? ≠ some '/' := by
      intro hdescend
      rcases rest with _ | ⟨r, rest⟩
      · rw [spelling, List.flatMap_nil, List.append_nil]
        exact hq.head?_ne
      · rw [List.dropLast_cons_of_ne_nil (List.cons_ne_nil r rest)] at hfollowed
        have hfilled := (hfollowed q (by simp)).filled hdescend
        obtain ⟨c, s, hs⟩ := List.exists_cons_of_ne_nil hfilled
        have hne := hq.head?_ne
        rw [hs] at hne ⊢
        exact hne
    have hspelling : spelling (q :: rest) = q.separator.spelling ++ (q.text ++ spelling rest) := by
      rw [spelling, List.flatMap_cons, List.append_assoc, spelling]
    rw [hspelling, (hquoted p List.mem_cons_self).cut_append_spelling
      (hfollowed p List.mem_cons_self).closed (hrest q List.mem_cons_self) hhead,
      ih (fun r hr ↦ hquoted r (List.mem_cons_of_mem p hr))
        (fun r hr ↦ hfollowed r (List.mem_cons_of_mem p hr))
        fun r hr ↦ hrest r (List.mem_cons_of_mem q hr)]

theorem Separated.cut_eq {pieces : List Piece} (h : Separated pieces) :
    cut .start false [] (spelling pieces) = pieces := by
  obtain ⟨text, more, rfl, hmore⟩ := h.starts
  exact cut_spelling h.quoted h.followed hmore

/-- The piece with more text at its end. -/
def extended (p : Piece) (t : List Char) : Piece := { p with text := p.text ++ t }

theorem SlashesQuoted.append {s : List Char} (h : SlashesQuoted s) (ht : '/' ∉ t) :
    SlashesQuoted (s ++ t) := by
  intro before after heq
  rcases List.append_eq_append_iff.mp heq with ⟨more, -, hmore⟩ | ⟨more, rfl, hmore⟩
  · exact absurd (by simp [hmore]) ht
  · rcases more with _ | ⟨c, more⟩
    · rw [List.nil_append] at hmore
      exact absurd (hmore ▸ List.mem_cons_self) ht
    · obtain ⟨rfl, -⟩ := List.cons.inj hmore
      exact h before more rfl

/-- Where neither a quote nor a slash is added, the texts are cut as before. -/
theorem Separated.extend (h : Separated (init ++ p :: rest)) (hquote : '"' ∉ t)
    (hslash : '/' ∉ t) : Separated (init ++ p.extended t :: rest) where
  starts := by
    obtain ⟨text, more, heq, hmore⟩ := h.starts
    rcases init with _ | ⟨first, init⟩
    · obtain ⟨rfl, rfl⟩ := List.cons.inj heq
      exact ⟨text ++ t, rest, rfl, hmore⟩
    · rw [List.cons_append] at heq
      obtain ⟨rfl, rfl⟩ := List.cons.inj heq
      refine ⟨text, init ++ p.extended t :: rest, rfl, ?_⟩
      simp only [List.forall_mem_append, List.forall_mem_cons] at hmore ⊢
      exact hmore
  quoted := by
    have hquoted := h.quoted
    simp only [List.forall_mem_append, List.forall_mem_cons] at hquoted ⊢
    exact ⟨hquoted.1, hquoted.2.1.append hslash, hquoted.2.2⟩
  followed := by
    have hfollowed := h.followed
    rcases rest with _ | ⟨q, rest⟩
    · simpa using hfollowed
    · rw [List.dropLast_append_cons, List.dropLast_cons_of_ne_nil (List.cons_ne_nil q rest)]
        at hfollowed ⊢
      simp only [List.forall_mem_append, List.forall_mem_cons] at hfollowed ⊢
      refine ⟨hfollowed.1, ⟨?_, fun hdescend hnil ↦ ?_⟩, hfollowed.2.2⟩
      · rw [extended, openAfter_append, hfollowed.2.1.closed, openAfter_of_not_mem hquote]
      · exact hfollowed.2.1.filled hdescend (List.append_eq_nil_iff.mp hnil).1

private theorem openAfter_extended (hquote : '"' ∉ t) (inside : Bool) :
    openAfter inside (spelling (init ++ p.extended t :: rest)) =
      openAfter inside (spelling (init ++ p :: rest)) := by
  simp only [spelling, List.flatMap_append, List.flatMap_cons, extended, openAfter_append,
    openAfter_of_not_mem hquote]

private theorem closed_of_split_eq {query : String} (h : split query = init ++ p :: rest)
    (hclosed : openAfter false query.toList = false) : openAfter false p.text = false := by
  obtain ⟨hinit, -, hfollowed⟩ := quoted_of_split_eq h
  rcases rest with _ | ⟨q, rest⟩
  · rw [← spelling_split, h, spelling, List.flatMap_append, List.flatMap_singleton,
      openAfter_append, openAfter_append, ← spelling, hinit, openAfter_spelling] at hclosed
    exact hclosed
  · exact (hfollowed (List.cons_ne_nil q rest)).closed

end Piece

/-! ## What a modifier says -/

namespace Modifier

/-- The modifiers that are no indexes. -/
def IsFlag : Modifier → Prop
  | .index _ => False
  | .indexEach _ => False
  | _ => True

variable {w : Modifier}

private theorem spells_firstEach : Spells " --fe" .firstEach := ⟨rfl, by decide, by decide, rfl⟩

private theorem exists_spells_flag {suffix : String}
    (h : suffix ∈ [" --f", " --fe", " --h", " --a"]) :
    ∃ w, Spells suffix w ∧ w.IsFlag := by
  simp only [List.mem_cons, List.not_mem_nil, or_false] at h
  rcases h with rfl | rfl | rfl | rfl
  · exact ⟨_, spells_firstOverall, trivial⟩
  · exact ⟨_, spells_firstEach, trivial⟩
  · exact ⟨_, spells_hiddenOnly, trivial⟩
  · exact ⟨_, spells_allLayers, trivial⟩

end Modifier

/-- What is said with one modifier more, an index in the last piece. -/
def QueryModifiers.add (m : QueryModifiers) : Modifier → QueryModifiers
  | .firstOverall => { m with firstOverall := true }
  | .firstEach => { m with firstEach := true }
  | .hiddenOnly => { m with hiddenOnly := true }
  | .allLayers => { m with allLayers := true }
  | .index n => { m with index := some n }
  | .indexEach n => { m with indexEach := some n }

namespace QueryPlan

open Modifier

variable {init rest pieces : List CleanPiece} {p : CleanPiece} {w : Modifier}
  {query suffix raw : String} {plan : QueryPlan} {m : QueryModifiers}

/-- A modifier more in the last piece is one that counts for the query, and so is a flag more in any
piece. -/
theorem modifiersOf_marked (h : w.IsFlag ∨ rest = []) (init : List CleanPiece) (p : CleanPiece) :
    modifiersOf (init ++ p.marked w :: rest) = (modifiersOf (init ++ p :: rest)).add w := by
  rcases rest.eq_nil_or_concat with rfl | ⟨more, last, rfl⟩
  · cases w <;>
      simp [modifiersOf, CleanPiece.marked, lastIndex?, lastIndexEach?, QueryModifiers.add]
  · have hflag : w.IsFlag := h.resolve_right (by simp)
    have hlast : ∀ q, (init ++ q :: more.concat last).getLast? = some last := by
      intro q
      rw [List.concat_eq_append, ← List.cons_append, ← List.append_assoc, List.getLast?_concat]
    rw [modifiersOf, modifiersOf, hlast, hlast]
    cases w <;> simp_all [CleanPiece.marked, QueryModifiers.add, IsFlag]

private theorem pickFor_marked (h : w.IsFlag ∨ rest = []) (m : QueryModifiers) (p : CleanPiece)
    (isFinal : Bool) (hfinal : rest = [] → isFinal = true) :
    pickFor m (p.marked w) isFinal = pickFor m p isFinal := by
  rcases h with hflag | hlast
  · have hnumbers : lastIndex? (p.modifiers ++ [w]) = lastIndex? p.modifiers ∧
        lastIndexEach? (p.modifiers ++ [w]) = lastIndexEach? p.modifiers := by
      simp only [lastIndex?, lastIndexEach?, List.foldl_concat]
      cases w with
      | index n => exact hflag.elim
      | indexEach n => exact hflag.elim
      | _ => exact ⟨rfl, rfl⟩
    rw [pickFor, pickFor, CleanPiece.marked, hnumbers.1, hnumbers.2]
  · rw [hfinal hlast]
    rfl

private theorem leading_marked (init rest : List CleanPiece) (p : CleanPiece) (w : Modifier) :
    (leading (init ++ p.marked w :: rest)).1 = (leading (init ++ p :: rest)).1 := by
  rcases init with _ | ⟨first, _ | ⟨second, init⟩⟩
  · cases rest with
    | nil => rfl
    | cons q rest =>
      change (leading (p.marked w :: q :: rest)).1 = (leading (p :: q :: rest)).1
      rw [leading, leading]
      change (if p.text.isEmpty then _ else _ : Bool × List CleanPiece).1 = _
      split <;> rfl
  · simp only [List.cons_append, List.nil_append, leading]
    split <;> rfl
  · simp only [List.cons_append, leading]
    split <;> rfl

/-- **One modifier more.** The plan of pieces one of which has a modifier more, a flag or one in the
last piece, is made of the same placed pieces, with what the modifier says. -/
theorem ofPieces_marked (h : w.IsFlag ∨ rest = []) {first : CleanPiece} {more : List CleanPiece}
    (hpieces : init ++ p :: rest = first :: more) (hfirst : first.separator = .start)
    (raw : String) :
    ofPieces raw (init ++ p.marked w :: rest) =
      assembled raw ((modifiersOf (first :: more)).add w) (leading (first :: more)).1
        (arrange false (first :: more)) := by
  obtain ⟨first', more', hmarked, hfirst'⟩ :
      ∃ first' more', init ++ p.marked w :: rest = first' :: more' ∧ first'.separator = .start := by
    rcases init with _ | ⟨q, init⟩
    · obtain ⟨rfl, -⟩ := List.cons.inj hpieces
      exact ⟨_, _, rfl, hfirst⟩
    · rw [List.cons_append] at hpieces
      obtain ⟨rfl, -⟩ := List.cons.inj hpieces
      exact ⟨_, _, rfl, hfirst⟩
  have hsegments : ∀ m, segmentsOf m true (arrange false (init ++ p.marked w :: rest)) =
      segmentsOf m true (arrange false (init ++ p :: rest)) := fun m ↦
    segmentsOf_arrange_marked_of_pick (pickFor_marked h m p) false true init
  have hplaced : arrange false (leading (init ++ p.marked w :: rest)).2 =
      arrange false (init ++ p.marked w :: rest) := by
    rw [hmarked, arrange_leading hfirst']
  rw [ofPieces_eq, hplaced, modifiersOf_marked h, leading_marked, assembled, hsegments,
    ← isEmpty_segmentsOf {} true, hsegments, isEmpty_segmentsOf, hpieces]
  rfl

/-! ## Plans -/

private theorem parseQuery_append_spelled (h : Spells suffix w)
    (hpieces : cleanPieces query = .ok pieces)
    (hclosed : Even (query.toList.count '"')) :
    parseQuery (query ++ suffix) =
      .ok (assembled (query ++ suffix) ((modifiersOf pieces).add w) (leading pieces).1
        (arrange false pieces)) := by
  obtain ⟨first, more, hfirst, hstart, -⟩ := exists_cleanPieces hpieces
  obtain ⟨init, p, hlast, hmarked⟩ := cleanPieces_append_suffix h hpieces hclosed
  rw [parseQuery_eq, hmarked, hfirst]
  exact congrArg Except.ok (ofPieces_marked (Or.inr rfl) (hlast.symm.trans hfirst) hstart _)

/-- A text that has the same pieces up to blanks around it may have a flag at the end of any of
them. -/
theorem parseQuery_extended (h : Spells suffix w) (hflag : w.IsFlag)
    (hpieces : cleanPieces query = .ok pieces) (hclosed : Even (query.toList.count '"'))
    {text : String} (htrim : trim text.toList = trim query.toList) {init rest : List Piece}
    {p : Piece} (hsplit : Piece.split text = init ++ p :: rest) :
    parseQuery (String.ofList (Piece.spelling (init ++ p.extended suffix.toList :: rest))) =
      .ok (assembled (String.ofList (Piece.spelling (init ++ p.extended suffix.toList :: rest)))
        ((modifiersOf pieces).add w) (leading pieces).1 (arrange false pieces)) := by
  have hopen : openAfter false text.toList = false := by
    rw [← openAfter_trim, htrim, openAfter_trim, openAfter_eq_false_iff]
    exact hclosed
  have hspelled : openAfter false
      (Piece.spelling (init ++ p.extended suffix.toList :: rest)) = false := by
    rw [Piece.openAfter_extended h.quote, ← hsplit, Piece.spelling_split, hopen]
  -- both texts are cut where they are put together
  have hcut : cleanCut (Piece.spelling (init ++ p.extended suffix.toList :: rest)) =
      (init ++ p.extended suffix.toList :: rest).mapM CleanPiece.ofPiece := by
    have hseparated := Piece.separated_split text
    rw [hsplit] at hseparated
    rw [cleanCut, (hseparated.extend h.quote h.slash).cut_eq]
  have htext : (init ++ [p] ++ rest).mapM CleanPiece.ofPiece = .ok pieces := by
    rw [List.append_assoc, List.singleton_append, ← hsplit, ← hpieces, cleanPieces_eq, ← htrim,
      ← cleanPieces_eq, cleanPieces_eq_of_closed (openAfter_eq_false_iff.mp hopen)]
    rfl
  obtain ⟨_, crest, hfront, hrest, rfl⟩ := exists_of_mapM_append htext
  obtain ⟨cinit, _, hinit, hpiece, rfl⟩ := exists_of_mapM_append hfront
  obtain ⟨q, hq, rfl⟩ := exists_of_mapM_singleton hpiece
  have hmarked : CleanPiece.ofPiece (p.extended suffix.toList) = .ok (q.marked w) := by
    rw [Piece.extended, ofPiece_append_suffix h (Piece.closed_of_split_eq hsplit hopen), hq]
    rfl
  obtain ⟨first, more, hfirst, hstart, -⟩ := exists_cleanPieces hpieces
  have hclosed' : Even ((String.ofList
      (Piece.spelling (init ++ p.extended suffix.toList :: rest))).toList.count '"') := by
    rw [String.toList_ofList]
    exact openAfter_eq_false_iff.mp hspelled
  rw [parseQuery_eq, cleanPieces_eq_of_closed hclosed', String.toList_ofList, hcut,
    List.mapM_append, List.mapM_cons, hinit, hmarked, hrest, hfirst]
  rw [List.append_assoc, List.singleton_append] at hfirst
  exact congrArg Except.ok (ofPieces_marked (Or.inl hflag) hfirst hstart _)

/-- The pick in each scope that stands for the whole query is that of the last segment. -/
theorem exists_segmentsOf_indexEach {placed : List PlacedPiece} (h : placed ≠ [])
    (m : QueryModifiers) (n : Nat) (isFirst : Bool) :
    ∃ front last, segmentsOf m isFirst placed = front ++ [last] ∧
      segmentsOf { m with indexEach := some n } isFirst placed =
        front ++ [{ last with
          pick := if m.firstOverall then none else some ⟨.perScope, n⟩ }] := by
  induction placed generalizing isFirst with
  | nil => exact absurd rfl h
  | cons q rest ih =>
    rcases rest with _ | ⟨r, rest⟩
    · exact ⟨[], segmentOf m q isFirst true, rfl, rfl⟩
    · obtain ⟨front, last, hsegments, hpicked⟩ := ih (List.cons_ne_nil r rest) false
      refine ⟨segmentOf m q isFirst false :: front, last, ?_, ?_⟩
      · rw [segmentsOf, hsegments]
        rfl
      · rw [segmentsOf, hpicked]
        rfl

/-- **Adding a modifier changes what it means, and nothing else.** A number behind a query that
looks for anything is its index, and is chosen at the end; with an `e` behind it, it is picked in
each scope by the last segment; both unless there is `--f`. A flag may stand at the end of any
piece, even of an empty one: the plan is the one with the flag behind the query. -/
theorem parseQuery_add (hplan : parseQuery query = .ok plan)
    (hclosed : Even (query.toList.count '"')) (hsome : plan.isEmpty = false) :
    (∀ n : Nat, (toString n).length ≤ digitLimit →
      parseQuery (query ++ (" --" ++ toString n)) =
        .ok { plan with
          raw := query ++ (" --" ++ toString n)
          modifiers := { plan.modifiers with index := some n }
          finalPick := if plan.modifiers.firstOverall then none else some ⟨.overall, n⟩ }) ∧
    (∀ n : Nat, (toString n).length ≤ digitLimit →
      ∃ front last, plan.segments = front ++ [last] ∧
        parseQuery (query ++ (" --" ++ toString n ++ "e")) =
          .ok { plan with
            raw := query ++ (" --" ++ toString n ++ "e")
            segments := front ++ [{ last with
              pick := if plan.modifiers.firstOverall then none else some ⟨.perScope, n⟩ }]
            modifiers := { plan.modifiers with indexEach := some n } }) ∧
    ∀ suffix ∈ [" --f", " --fe", " --h", " --a"],
      ∃ flagged, parseQuery (query ++ suffix) = .ok flagged ∧
        ∀ text init p rest (marked : String), trim text.toList = trim query.toList →
          Piece.split text = init ++ p :: rest →
          marked.toList = Piece.spelling (init ++ p.extended suffix.toList :: rest) →
          parseQuery marked = .ok { flagged with raw := marked } := by
  obtain ⟨pieces, hpieces, rfl⟩ := exists_ofPieces hplan
  obtain ⟨first, more, rfl, hfirst, -⟩ := exists_cleanPieces hpieces
  rw [ofPieces_eq, arrange_leading hfirst] at hsome ⊢
  have hempty : (arrange false (first :: more)).isEmpty = false := by
    rw [isEmpty, assembled, isEmpty_segmentsOf] at hsome
    exact hsome
  refine ⟨fun n hn ↦ ?_, fun n hn ↦ ?_, fun suffix hsuffix ↦ ?_⟩
  · rw [parseQuery_append_spelled (spells_index hn) hpieces hclosed]
    simp only [assembled, QueryModifiers.add, segmentsOf_index, hempty, Bool.or_false]
  · obtain ⟨front, last, hsegments, hpicked⟩ := exists_segmentsOf_indexEach
      (List.isEmpty_eq_false_iff.mp hempty) (modifiersOf (first :: more)) n true
    refine ⟨front, last, hsegments, ?_⟩
    have hspells : Spells (" --" ++ toString n ++ "e") (.indexEach n) := spells_eachSuffix hn
    rw [parseQuery_append_spelled hspells hpieces hclosed]
    simp only [assembled, QueryModifiers.add, hpicked]
    rfl
  · obtain ⟨w, hspells, hflag⟩ := exists_spells_flag hsuffix
    refine ⟨_, parseQuery_append_spelled hspells hpieces hclosed, ?_⟩
    intro text init p rest marked htrim hsplit hmarked
    obtain rfl : String.ofList (Piece.spelling (init ++ p.extended suffix.toList :: rest)) =
        marked := by rw [← hmarked, String.ofList_toList]
    exact parseQuery_extended hspells hflag hpieces hclosed htrim hsplit

/-- Indexes behind a query that has some already, and `--h` in its first piece. -/
theorem parseQuery_add_slashed :
    ∃ plan, parseQuery " @A --2//\"b/ --f\" --1e " = .ok plan ∧ plan.isEmpty = false ∧
      parseQuery (" @A --2//\"b/ --f\" --1e " ++ (" --" ++ toString 7)) =
        .ok { plan with
          raw := " @A --2//\"b/ --f\" --1e " ++ (" --" ++ toString 7)
          modifiers := { plan.modifiers with index := some 7 }
          finalPick := some ⟨.overall, 7⟩ } ∧
      (∃ front last, plan.segments = front ++ [last] ∧
        parseQuery (" @A --2//\"b/ --f\" --1e " ++ (" --" ++ toString 7 ++ "e")) =
          .ok { plan with
            raw := " @A --2//\"b/ --f\" --1e " ++ (" --" ++ toString 7 ++ "e")
            segments := front ++ [{ last with pick := some ⟨.perScope, 7⟩ }]
            modifiers := { plan.modifiers with indexEach := some 7 } }) ∧
      ∃ flagged, parseQuery (" @A --2//\"b/ --f\" --1e " ++ " --h") = .ok flagged ∧
        parseQuery "@A --2 --h//\"b/ --f\" --1e" =
          .ok { flagged with raw := "@A --2 --h//\"b/ --f\" --1e" } := by
  obtain ⟨plan, hplan⟩ : ∃ plan, parseQuery " @A --2//\"b/ --f\" --1e " = .ok plan := ⟨_, rfl⟩
  have hvalue := Except.ok.inj hplan
  have hsome : plan.isEmpty = false := by
    rw [← hvalue]
    decide
  have hfirst : plan.modifiers.firstOverall = false := by
    rw [← hvalue]
    decide
  obtain ⟨hindex, heach, hflag⟩ := parseQuery_add hplan (by decide) hsome
  rw [hfirst] at hindex heach
  obtain ⟨flagged, hflagged, hinserted⟩ := hflag " --h" (by simp)
  refine ⟨plan, hplan, hsome, hindex 7 (by decide), heach 7 (by decide), flagged, hflagged, ?_⟩
  exact hinserted "@A --2//\"b/ --f\" --1e" [] ⟨.start, "@A --2".toList⟩
    [⟨.direct, "\"b/ --f\" --1e".toList⟩] _ (by decide) (by decide) (by decide)

end QueryPlan

end SceneSearch
