import SceneSearch.Proofs.Query.Continuation
import SceneSearch.Proofs.Query.Tokens

/-!
# Quoted names

A name between double quotes, with a type symbol in front or not, is a query for the layers of this
name. The text in the quotes may hold whatever means something outside quotes: each reader on the
way goes through an open literal without looking at it, up to the quote that closes it. There are
three of them, the one that cuts a query at its slashes, the one that takes modifiers out and the
one that reads tokens; the blanks that are cut in between stand outside quotes.
-/

namespace SceneSearch

variable {separator : Separator} {done word s t : List Char} {symbol : TypeSymbol}

/-! ## Readers inside a literal -/

theorem Piece.cut_literal_append (h : '"' ∉ t) (s : List Char) :
    cut separator true done (t ++ s) = cut separator true (t.reverse ++ done) s := by
  induction t generalizing done with
  | nil => rfl
  | cons c rest ih =>
    obtain ⟨hc, hrest⟩ := not_or.mp (List.mem_cons.not.mp h)
    rw [List.cons_append, cut_literal (Ne.symm hc), ih hrest, List.reverse_cons, List.append_assoc,
      List.singleton_append]

theorem Modifier.takeAlong_literal_append (h : '"' ∉ t) (s : List Char) :
    takeAlong true [] (t ++ s) = join (keep t) (takeAlong true [] s) := by
  induction t with
  | nil => exact keep_nil_join.symm
  | cons c rest ih =>
    obtain ⟨hc, hrest⟩ := not_or.mp (List.mem_cons.not.mp h)
    rw [List.cons_append, takeAlong_true_cons (Ne.symm hc), ih hrest, ← join_assoc]
    rfl

theorem NameToken.scan_literal_append (h : '"' ∉ t) (s : List Char) :
    scan true done (t ++ s) = scan true (t.reverse ++ done) s := by
  induction t generalizing done with
  | nil => rfl
  | cons c rest ih =>
    obtain ⟨hc, hrest⟩ := not_or.mp (List.mem_cons.not.mp h)
    rw [List.cons_append, scan_letter (Ne.symm hc) (by simp), ih hrest, List.reverse_cons,
      List.append_assoc, List.singleton_append]

/-! ## A literal as a query -/

/-- A text between double quotes. -/
def enquoted (t : List Char) : List Char := '"' :: (t ++ ['"'])

theorem trim_enquoted (t : List Char) : trim (enquoted t) = enquoted t := by
  rw [enquoted, trim_cons (by decide), trimEnd_of_not_blank t (by decide)]

private theorem tokenize_enquoted (hne : t ≠ []) (h : '"' ∉ t) :
    NameToken.tokenize (String.ofList (enquoted t)) = [.literal t] := by
  rw [NameToken.tokenize, String.toList_ofList, enquoted, NameToken.scan_quote, Bool.not_false,
    NameToken.scan_literal_append h, List.append_nil, NameToken.scan_quote]
  change [] ++ (NameToken.pendingLiteral t.reverse ++ []) = _
  rw [NameToken.pendingLiteral, if_neg (by simpa using hne), List.reverse_reverse]
  rfl

private theorem asksWhole_enquoted (hne : t ≠ []) (h : '"' ∉ t) :
    NameToken.AsksWhole (String.ofList (enquoted t)) t := by
  refine NameToken.asksWhole_of_tokenize ?_ (tokenize_enquoted hne h)
  rw [String.toList_ofList, enquoted, List.count_cons_self, List.count_append,
    List.count_eq_zero.mpr h]
  decide

/-! ## A literal behind a symbol -/

namespace TypeSymbol

/-- A symbol is written as a character that reads as nothing else, or it is not written. -/
theorem exists_spelling (symbol : TypeSymbol) :
    symbol = any ∧ symbol.spelling.toList = [] ∨
      ∃ c, symbol.spelling.toList = [c] ∧ ofChar? c = some symbol ∧ isBlank c = false ∧ c ≠ '"' ∧
        c ≠ '/' := by
  cases symbol with
  | any => exact Or.inl ⟨rfl, rfl⟩
  | _ => exact Or.inr ⟨_, rfl, by decide, by decide, by decide, by decide⟩

end TypeSymbol

/-- The text of a query for a name, restricted to a type. -/
def exactText (symbol : TypeSymbol) (t : List Char) : List Char :=
  symbol.spelling.toList ++ enquoted t

theorem trim_exactText (symbol : TypeSymbol) (t : List Char) :
    trim (exactText symbol t) = exactText symbol t := by
  rw [exactText]
  rcases symbol.exists_spelling with ⟨-, hspelling⟩ | ⟨c, hspelling, -, hblank, -, -⟩
  · rw [hspelling, List.nil_append, trim_enquoted]
  · rw [hspelling, List.singleton_append, trim_cons hblank, enquoted, ← List.cons_append,
      trimEnd_of_not_blank _ (by decide)]

private theorem cut_exactText (h : '"' ∉ t) :
    Piece.cut .start false [] (exactText symbol t) = [⟨.start, exactText symbol t⟩] := by
  have hliteral : ∀ done, Piece.cut .start false done (enquoted t) =
      [⟨.start, done.reverse ++ enquoted t⟩] := by
    intro done
    rw [enquoted, Piece.cut_quote, Bool.not_false, Piece.cut_literal_append h, Piece.cut_quote,
      Piece.cut_nil]
    simp
  rw [exactText]
  rcases symbol.exists_spelling with ⟨-, hspelling⟩ | ⟨c, hspelling, -, -, hquote, hslash⟩
  · rw [hspelling]
    exact hliteral []
  · rw [hspelling, List.singleton_append, Piece.cut_letter hquote hslash, hliteral]
    rfl

private theorem splitSymbol_exactText (symbol : TypeSymbol) (t : List Char) :
    splitSymbol (exactText symbol t) = (symbol, enquoted t) := by
  rw [splitSymbol, trim_exactText, exactText]
  rcases symbol.exists_spelling with ⟨rfl, hspelling⟩ | ⟨c, hspelling, hchar, -⟩
  · rw [hspelling]
    rfl
  · rw [hspelling, List.singleton_append]
    dsimp only
    rw [hchar, trim_enquoted]

namespace Modifier

private theorem takeAlong_enquoted (h : '"' ∉ t) (word : List Char) :
    takeAlong false word (enquoted t) = join (ending word) (keep (enquoted t)) := by
  rw [enquoted, takeAlong_false_quote, takeAlong_literal_append h, takeAlong_true_quote]
  rfl

theorem ending_singleton (c : Char) : ending [c] = keep [c] := by
  rw [ending, wording?]
  · rfl
  · simp

private theorem extract_exactText (h : '"' ∉ t) :
    extract (exactText symbol t) = .ok ⟨exactText symbol t, []⟩ := by
  have htake : takeAlong false [] (exactText symbol t) = keep (exactText symbol t) := by
    rw [exactText]
    rcases symbol.exists_spelling with ⟨-, hspelling⟩ | ⟨c, hspelling, -, hblank, hquote, -⟩
    · rw [hspelling, List.nil_append, takeAlong_enquoted h, ending_nil, keep_nil_join]
    · rw [hspelling, List.singleton_append, takeAlong_letter hquote (by simp [hblank]),
        takeAlong_enquoted h, ending_singleton]
      rfl
  rw [extract_eq, htake]
  exact congrArg (fun text ↦ Except.ok (Extraction.mk text [])) (trim_exactText symbol t)

end Modifier

namespace QueryPlan

variable {text : String}

private theorem toList_exact (symbol : TypeSymbol) (text : String) :
    (symbol.spelling ++ "\"" ++ text ++ "\"").toList = exactText symbol text.toList := by
  simp [exactText, enquoted]

/-- The segment of a quoted name. -/
def exactSegment (symbol : TypeSymbol) (text : String) : SegmentPlan where
  symbol := symbol
  nameQuery := String.ofList (enquoted text.toList)
  direct := false
  visibility := .default
  isFirst := true
  isFinal := true

private theorem parseQuery_exact (hquote : '"' ∉ text.toList) :
    parseQuery (symbol.spelling ++ "\"" ++ text ++ "\"") =
      .ok { raw := symbol.spelling ++ "\"" ++ text ++ "\""
            segments := [exactSegment symbol text] } := by
  have hpieces : cleanPieces (symbol.spelling ++ "\"" ++ text ++ "\"") =
      .ok [⟨.start, exactText symbol text.toList, []⟩] := by
    rw [cleanPieces_eq, toList_exact, trim_exactText, cleanCut, cut_exactText hquote,
      List.mapM_cons, CleanPiece.ofPiece, Modifier.extract_exactText hquote]
    rfl
  have hsome : (exactText symbol text.toList).isEmpty = false := by
    rw [exactText, enquoted]
    simp
  have hplaced : arrange false [⟨.start, exactText symbol text.toList, []⟩] =
      [⟨⟨.start, exactText symbol text.toList, []⟩, false, false⟩] := by
    rw [arrange, hsome]
    rfl
  have hsegment :
      segmentOf {} ⟨⟨.start, exactText symbol text.toList, []⟩, false, false⟩ true true =
        exactSegment symbol text := by
    rw [segmentOf, if_neg Bool.false_ne_true, splitSymbol_exactText]
    rfl
  rw [parseQuery_eq, hpieces]
  refine congrArg Except.ok ?_
  rw [ofPieces_of_free (by simp), leading, hplaced, ← hsegment]
  · rfl
  · simp

/-- **A quoted name is asked for exactly.** Whatever the text in the quotes, the query is a single
segment of the type in front of it, at any depth, without a modifier and without a pick, and what it
asks of a name is to be this text. -/
theorem quoted_asks_exactly (hne : text ≠ "") (hquote : '"' ∉ text.toList) :
    ∃ plan segment, parseQuery (symbol.spelling ++ "\"" ++ text ++ "\"") = .ok plan ∧
      plan.segments = [segment] ∧ segment.symbol = symbol ∧ segment.direct = false ∧
      plan.modifiers = {} ∧ segment.stopAtFirst = false ∧ segment.pick = none ∧
      plan.finalPick = none ∧
      ∀ name, nameMatches segment.nameQuery name = true ↔ name = text := by
  refine ⟨_, _, parseQuery_exact hquote, rfl, rfl, rfl, rfl, rfl, rfl, rfl, fun name ↦ ?_⟩
  have hsome : text.toList ≠ [] := by simpa using hne
  exact ((asksWhole_enquoted hsome hquote).nameMatches_iff name).trans String.toList_inj

/-- A name with a slash, words that are modifiers elsewhere, a symbol and blanks. -/
theorem quoted_asks_exactly_slashed :
    ∃ plan segment, parseQuery "@\" a//b --f --2e =c \"" = .ok plan ∧ plan.segments = [segment] ∧
      segment.symbol = .frame ∧ plan.modifiers = {} ∧
      ∀ name, nameMatches segment.nameQuery name = true ↔ name = " a//b --f --2e =c " := by
  obtain ⟨plan, segment, hplan, hsegments, hsymbol, -, hmodifiers, -, -, -, hname⟩ :=
    @quoted_asks_exactly .frame " a//b --f --2e =c " (by decide) (by decide)
  exact ⟨plan, segment, hplan, hsegments, hsymbol, hmodifiers, hname⟩

end QueryPlan

end SceneSearch
