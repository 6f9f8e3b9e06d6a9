import SceneSearch.Proofs.Query.Continuation
import SceneSearch.Query.Name

/-!
# Literals on their way to the matchers

Three readers decide what stands between double quotes: the one that cuts a query at its slashes,
the one that takes modifiers out, and the one that reads the tokens of a name query. Blanks are cut
at several places in between, and symbols are taken off. `literals_segments` says that the matchers
are given the literals of the query all the same, each as it is written and in order.

The readers are compared with `readLiterals`, which goes along a text once and knows of quotes only.
What is done to a text on the way leaves its literals alone for one of two reasons: what is cut or
taken away stands outside quotes; or, for blanks at the end of a text, the text does not leave a
literal open that ends in a blank, which is `EndsPlain`. A query without the blanks around it is
such a text, and its pieces inherit that.
-/

namespace SceneSearch

/-! ## Literals of a text -/

/-- Every other item of a list, starting with the second one. -/
def everyOther {α : Type} : List α → List α
  | _ :: b :: rest => b :: everyOther rest
  | _ => []

/-- The literals of a text: every other part of it between its double quotes, if not empty. -/
def literalsOf (text : List Char) : List (List Char) :=
  (everyOther (text.splitOn '"')).filter fun literal ↦ !literal.isEmpty

/-- The literals that a name query asks for. -/
def NameToken.literalsIn (query : String) : List (List Char) :=
  ((tokenize query).filter (·.isLiteral)).map (·.text)

/-- The literal that was read so far, its characters reversed, if it is not empty. -/
def pendingLiteral (done : List Char) : List (List Char) :=
  if done.isEmpty then [] else [done.reverse]

/-- Reads literals. If one is open, `opened` is what was read of it, reversed. -/
def readLiterals (opened : Option (List Char)) : List Char → List (List Char)
  | [] => (opened.map pendingLiteral).getD []
  | c :: rest =>
    match opened with
    | none => readLiterals (if c = '"' then some [] else none) rest
    | some done =>
      if c = '"' then pendingLiteral done ++ readLiterals none rest
      else readLiterals (some (c :: done)) rest

section

variable {opened : Option (List Char)} {done s t blanks : List Char} {c : Char}

theorem readLiterals_none_cons (h : c ≠ '"') (s : List Char) :
    readLiterals none (c :: s) = readLiterals none s := by
  rw [readLiterals, if_neg h]

theorem readLiterals_some_quote (done s : List Char) :
    readLiterals (some done) ('"' :: s) = pendingLiteral done ++ readLiterals none s := rfl

theorem readLiterals_some_cons (h : c ≠ '"') (done s : List Char) :
    readLiterals (some done) (c :: s) = readLiterals (some (c :: done)) s := by
  rw [readLiterals, if_neg h]

private theorem filter_singleton_pendingLiteral (done : List Char) :
    [done.reverse].filter (fun literal ↦ !literal.isEmpty) = pendingLiteral done := by
  rcases done with _ | ⟨c, done⟩
  · rfl
  · simp [pendingLiteral]

private theorem literalsOf_eq (s : List Char) : literalsOf s = readLiterals none s := by
  -- the first chunk is outside quotes, or it goes on with what was read of a literal
  have hboth : literalsOf s = readLiterals none s ∧ ∀ done : List Char,
      (everyOther ([] :: (Modifier.chunks s).modifyHead (done.reverse ++ ·))).filter
        (fun literal ↦ !literal.isEmpty) = readLiterals (some done) s := by
    induction s with
    | nil =>
      refine ⟨rfl, fun done ↦ ?_⟩
      change [done.reverse ++ []].filter _ = _
      rw [List.append_nil, filter_singleton_pendingLiteral]
      rfl
    | cons c rest ih =>
      obtain ⟨hout, hin⟩ := ih
      obtain ⟨first, more, hchunks⟩ :=
        List.exists_cons_of_ne_nil (List.splitOn_ne_nil '"' rest)
      rw [literalsOf, hchunks] at hout
      simp only [Modifier.chunks, hchunks, List.modifyHead_cons] at hin
      by_cases hquote : c = '"'
      · subst hquote
        have hcons : ('"' :: rest).splitOn '"' = [] :: first :: more :=
          (Modifier.chunks_quote rest).trans (congrArg _ hchunks)
        rw [literalsOf, Modifier.chunks, hcons]
        refine ⟨hin [], fun done ↦ ?_⟩
        rw [List.modifyHead_cons, List.append_nil, everyOther, readLiterals_some_quote,
          ← hout, ← filter_singleton_pendingLiteral, ← List.filter_append]
        rfl
      · have hcons : (c :: rest).splitOn '"' = (c :: first) :: more :=
          (Modifier.chunks_cons hquote rest).trans (congrArg (List.modifyHead _) hchunks)
        rw [literalsOf, Modifier.chunks, hcons, readLiterals_none_cons hquote, ← hout]
        refine ⟨by rcases more with _ | ⟨_, _⟩ <;> rfl, fun done ↦ ?_⟩
        rw [readLiterals_some_cons hquote, ← hin (c :: done), List.modifyHead_cons,
          List.reverse_cons, List.append_assoc, List.singleton_append]
  exact hboth.1

private theorem literals_scan (inside : Bool) (done s : List Char) :
    ((NameToken.scan inside done s).filter (·.isLiteral)).map (·.text) =
      readLiterals (if inside then some done else none) s := by
  have hword : ∀ done, (NameToken.pendingWord done).filter (·.isLiteral) = [] := by
    intro done
    rw [NameToken.pendingWord]
    split <;> rfl
  have hliteral : ∀ done, ((NameToken.pendingLiteral done).filter (·.isLiteral)).map (·.text) =
      pendingLiteral done := by
    intro done
    rw [NameToken.pendingLiteral, pendingLiteral]
    split <;> rfl
  induction s generalizing inside done with
  | nil =>
    cases inside with
    | true => exact hliteral done
    | false => exact congrArg _ (hword done)
  | cons c rest ih =>
    rw [NameToken.scan]
    by_cases hquote : c = '"'
    · subst hquote
      rw [if_pos rfl, List.filter_append, List.map_append, ih]
      cases inside with
      | true => exact congrArg (· ++ _) (hliteral done)
      | false => exact congrArg (List.map _ · ++ _) (hword done)
    · rw [if_neg hquote]
      cases inside with
      | true => exact (ih true (c :: done)).trans (readLiterals_some_cons hquote done rest).symm
      | false =>
        rw [if_neg Bool.false_ne_true, readLiterals_none_cons hquote]
        split
        · rw [List.filter_append, hword, List.nil_append]
          exact ih false []
        · exact ih false (c :: done)

/-! ## Texts put together -/

/-- The literals of two texts are those of one and of the other, if no quote is open in between. -/
theorem readLiterals_append (h : openAfter opened.isSome s = false) (t : List Char) :
    readLiterals opened (s ++ t) = readLiterals opened s ++ readLiterals none t := by
  induction s generalizing opened with
  | nil =>
    obtain rfl : opened = none := by simpa using h
    rfl
  | cons c rest ih =>
    rw [List.cons_append]
    by_cases hquote : c = '"'
    · subst hquote
      rcases opened with _ | done
      · exact ih h
      · rw [readLiterals_some_quote, readLiterals_some_quote, ih h, List.append_assoc]
    · rw [openAfter_cons hquote] at h
      rcases opened with _ | done
      · rw [readLiterals_none_cons hquote, readLiterals_none_cons hquote, ih h]
      · rw [readLiterals_some_cons hquote, readLiterals_some_cons hquote]
        exact ih h

theorem readLiterals_none_append (h : openAfter false s = false) (t : List Char) :
    readLiterals none (s ++ t) = readLiterals none s ++ readLiterals none t :=
  readLiterals_append (show openAfter (none : Option (List Char)).isSome s = false from h) t

theorem readLiterals_of_not_mem (h : '"' ∉ s) : readLiterals none s = [] := by
  induction s with
  | nil => rfl
  | cons c rest ih =>
    obtain ⟨hc, hrest⟩ := not_or.mp (List.mem_cons.not.mp h)
    rw [readLiterals_none_cons (Ne.symm hc), ih hrest]

theorem readLiterals_append_of_not_mem (h : '"' ∉ s) (t : List Char) :
    readLiterals none (s ++ t) = readLiterals none t := by
  rw [readLiterals_none_append (openAfter_of_not_mem h false), readLiterals_of_not_mem h,
    List.nil_append]

/-! ## Blanks at the ends -/

/-- If the text leaves a literal open, this does not end in a blank. -/
def EndsPlain (s : List Char) : Prop :=
  openAfter false s = true → ∀ c, s.getLast? = some c → isBlank c = false

theorem EndsPlain.of_append (h : EndsPlain (s ++ t)) (hclosed : openAfter false s = false) :
    EndsPlain t := by
  intro hopen c hc
  rw [EndsPlain, openAfter_append, hclosed, List.getLast?_append, hc] at h
  exact h hopen c rfl

theorem endsPlain_trim (s : List Char) : EndsPlain (trim s) := by
  intro hopen c hc
  have hne : trim s ≠ [] := by
    rintro hnil
    rw [hnil] at hopen
    cases hopen
  obtain ⟨init, last, hlast, htrim⟩ := exists_trim_eq_append hne
  rw [htrim, List.getLast?_concat] at hc
  exact Option.some.inj hc ▸ hlast

theorem readLiterals_trim (h : EndsPlain s) : readLiterals none (trim s) = readLiterals none s := by
  obtain ⟨front, hfront, hs⟩ := exists_trimStart s
  obtain ⟨back, hback, hstart⟩ := exists_trimEnd (trimStart s)
  have hquote := quote_not_mem_blanks hfront
  rw [hs] at h
  have hplain := h.of_append (openAfter_of_not_mem hquote false)
  have hall : readLiterals none s = readLiterals none (trimStart s) := by
    conv_lhs => rw [hs]
    exact readLiterals_append_of_not_mem hquote _
  rw [hall, trim]
  by_cases hopen : openAfter false (trimEnd (trimStart s)) = true
  · -- an open literal does not end in a blank, so nothing was cut
    rcases back.eq_nil_or_concat with rfl | ⟨init, c, rfl⟩
    · rw [List.append_nil] at hstart
      rw [← hstart]
    · have hblank : isBlank c = true := hback c (by simp)
      have hclash : isBlank c = false := by
        apply hplain
        · rw [hstart, openAfter_append, hopen]
          exact openAfter_of_not_mem (quote_not_mem_blanks hback) true
        · rw [hstart, List.getLast?_append, List.concat_eq_append, List.getLast?_concat]
          rfl
      rw [hblank] at hclash
      cases hclash
  · have hclosed : openAfter false (trimEnd (trimStart s)) = false := by simpa using hopen
    conv_rhs => rw [hstart]
    rw [readLiterals_none_append hclosed, readLiterals_of_not_mem (quote_not_mem_blanks hback),
      List.append_nil]

end

/-! ## Modifiers taken out -/

/-- Read after a quote that is open or not, two texts have the same literals, and they leave a quote
open both or neither; if they do, they end in the same character. -/
structure SameLiterals (inside : Bool) (s t : List Char) : Prop where
  /-- The literals are the same. -/
  literals : ∀ opened : Option (List Char), opened.isSome = inside →
    readLiterals opened t = readLiterals opened s
  /-- Both leave a quote open, or neither. -/
  openAfter_eq : openAfter inside t = openAfter inside s
  /-- Where a quote is open the last character is the same. -/
  getLast?_eq : openAfter inside s = true → t.getLast? = s.getLast?

namespace SameLiterals

variable {inside : Bool} {s t w : List Char} {c : Char}

private theorem refl (inside : Bool) (s : List Char) : SameLiterals inside s s :=
  ⟨fun _ _ ↦ rfl, rfl, fun _ ↦ rfl⟩

private theorem endsPlain (h : SameLiterals false s t) (hs : EndsPlain s) : EndsPlain t := by
  intro hopen c hc
  rw [h.openAfter_eq] at hopen
  exact hs hopen c ((h.getLast?_eq hopen).symm.trans hc)

private theorem cons (h : SameLiterals (openAfter inside [c]) s t) :
    SameLiterals inside (c :: s) (c :: t) := by
  have hopen : ∀ u, openAfter inside (c :: u) = openAfter (openAfter inside [c]) u := fun u ↦
    openAfter_append inside [c] u
  refine ⟨?_, ?_, ?_⟩
  · rintro (_ | done) rfl
    · by_cases hquote : c = '"'
      · subst hquote
        exact h.literals (some []) rfl
      · rw [openAfter_cons hquote] at h
        rw [readLiterals_none_cons hquote, readLiterals_none_cons hquote]
        exact h.literals none rfl
    · by_cases hquote : c = '"'
      · subst hquote
        exact congrArg (pendingLiteral done ++ ·) (h.literals none rfl)
      · rw [openAfter_cons hquote] at h
        rw [readLiterals_some_cons hquote, readLiterals_some_cons hquote]
        exact h.literals (some (c :: done)) rfl
  · rw [hopen t, hopen s, h.openAfter_eq]
  · intro hs
    rw [hopen] at hs
    rw [List.getLast?_cons, List.getLast?_cons, h.getLast?_eq hs]

/-- What has no quote and is outside quotes may be left out of the first text. -/
theorem skip (hc : c ≠ '"') (h : SameLiterals false s t) : SameLiterals false (c :: s) t := by
  refine ⟨?_, ?_, ?_⟩
  · intro opened hopened
    obtain rfl : opened = none := by simpa using hopened
    rw [readLiterals_none_cons hc, h.literals none rfl]
  · rw [openAfter_cons hc, h.openAfter_eq]
  · intro hs
    rw [openAfter_cons hc] at hs
    rw [h.getLast?_eq hs, List.getLast?_cons]
    rcases s with _ | ⟨d, s⟩
    · cases hs
    · rw [List.getLast?_cons]
      rfl

/-- What has no quote and is outside quotes may be put in front of the second text. -/
theorem prepend (hw : '"' ∉ w) (h : SameLiterals false s t) : SameLiterals false s (w ++ t) := by
  refine ⟨?_, ?_, ?_⟩
  · intro opened hopened
    obtain rfl : opened = none := by simpa using hopened
    rw [readLiterals_append_of_not_mem hw, h.literals none rfl]
  · rw [openAfter_append, openAfter_of_not_mem hw, h.openAfter_eq]
  · intro hs
    rw [List.getLast?_append, h.getLast?_eq hs]
    rcases s with _ | ⟨d, s⟩
    · cases hs
    · rw [List.getLast?_cons]
      rfl

end SameLiterals

namespace Modifier

variable {word : List Char}

private theorem quote_not_mem_ending {e : Extraction} (hword : '"' ∉ word)
    (h : ending word = .ok e) :
    '"' ∉ e.text := by
  rw [ending] at h
  split at h
  · obtain rfl := Except.ok.inj h
    simpa using hword
  · rename_i wording _
    rcases hmodifier : ofWording wording with cause | modifier
    · rw [hmodifier] at h
      cases h
    · rw [hmodifier] at h
      obtain rfl := Except.ok.inj h
      exact List.not_mem_nil

/-- **Taking modifiers out** leaves literals alone. -/
theorem sameLiterals_takeAlong {inside : Bool} {e : Extraction} (hword : '"' ∉ word)
    (s : List Char) (h : takeAlong inside word s = .ok e) : SameLiterals inside s e.text := by
  -- what a word becomes that ends here is put in front
  have hclose : ∀ {c : Char} {word rest : List Char} {e : Extraction}, '"' ∉ word →
      (∀ {e}, takeAlong (openAfter false [c]) [] rest = .ok e →
        SameLiterals (openAfter false [c]) rest e.text) →
      join (ending word) (join (keep [c]) (takeAlong (openAfter false [c]) [] rest)) = .ok e →
        SameLiterals false (c :: rest) e.text := by
    intro c word rest e hword hrest h
    obtain ⟨a, b, ha, hb, rfl⟩ := exists_of_join h
    obtain ⟨_, d, ⟨⟩, hd, rfl⟩ := exists_of_join hb
    exact (hrest hd).cons.prepend (quote_not_mem_ending hword ha)
  induction s generalizing inside word e with
  | nil =>
    cases inside with
    | true =>
      obtain rfl := Except.ok.inj h
      exact .refl true []
    | false =>
      have hquote := quote_not_mem_ending hword h
      simpa using (SameLiterals.refl false []).prepend hquote
  | cons c rest ih =>
    have hnil : '"' ∉ ([] : List Char) := List.not_mem_nil
    by_cases hquote : c = '"'
    · subst hquote
      cases inside with
      | true =>
        rw [takeAlong_true_quote] at h
        obtain ⟨_, d, ⟨⟩, hd, rfl⟩ := exists_of_join h
        have hrest : SameLiterals (openAfter true ['"']) rest d.text := ih hnil hd
        exact hrest.cons
      | false => exact hclose hword (ih hnil) h
    · have hopen : ∀ inside, openAfter inside [c] = inside := fun inside ↦
        openAfter_cons hquote inside []
      cases inside with
      | true =>
        rw [takeAlong_true_cons hquote] at h
        obtain ⟨_, d, ⟨⟩, hd, rfl⟩ := exists_of_join h
        exact .cons (by rw [hopen]; exact ih hnil hd)
      | false =>
        by_cases hblank : isBlank c = true
        · rw [takeAlong_blank hblank] at h
          refine hclose hword ?_ (by rw [hopen]; exact h)
          rw [hopen]
          exact ih hnil
        · rw [takeAlong_letter hquote hblank] at h
          refine (ih ?_ h).skip hquote
          simpa using ⟨Ne.symm hquote, hword⟩

/-- What is left of a text that ends plain has its literals and ends plain. -/
theorem readLiterals_extract {s : List Char} {e : Extraction} (h : extract s = .ok e)
    (hs : EndsPlain s) : readLiterals none e.text = readLiterals none s ∧ EndsPlain e.text := by
  rw [extract_eq] at h
  rcases htake : takeAlong false [] s with cause | r
  · rw [htake] at h
    cases h
  · rw [htake] at h
    obtain rfl := Except.ok.inj h
    have hsame := sameLiterals_takeAlong List.not_mem_nil s htake
    refine ⟨?_, endsPlain_trim r.text⟩
    exact (readLiterals_trim (hsame.endsPlain hs)).trans (hsame.literals none rfl)

end Modifier

/-! ## Cutting -/

namespace Piece

variable {separator : Separator} {inside : Bool} {done s : List Char}

/-- **Cutting at slashes** leaves literals alone: those of the pieces, one piece after the other,
are those of the text, and if the text ends plain every piece does. -/
theorem readLiterals_cut (separator : Separator) (s : List Char)
    (hdone : openAfter false done.reverse = inside) :
    (cut separator inside done s).flatMap (fun p ↦ readLiterals none p.text) =
        readLiterals none (done.reverse ++ s) ∧
      (EndsPlain (done.reverse ++ s) → ∀ p ∈ cut separator inside done s, EndsPlain p.text) := by
  -- a separator outside quotes ends a text that leaves no quote open, and is no part of a literal
  have hseparate : ∀ {mark : List Char} {pieces : List Piece} {done s : List Char}
      (separator : Separator), '"' ∉ mark → openAfter false done.reverse = false →
      (pieces.flatMap (fun p ↦ readLiterals none p.text) = readLiterals none s ∧
        (EndsPlain s → ∀ p ∈ pieces, EndsPlain p.text)) →
      (⟨separator, done.reverse⟩ :: pieces).flatMap (fun p ↦ readLiterals none p.text) =
          readLiterals none (done.reverse ++ (mark ++ s)) ∧
        (EndsPlain (done.reverse ++ (mark ++ s)) →
          ∀ p ∈ (⟨separator, done.reverse⟩ :: pieces : List Piece), EndsPlain p.text) := by
    intro mark pieces done s separator hmark hclosed ⟨hliterals, hplain⟩
    constructor
    · rw [List.flatMap_cons, hliterals, readLiterals_none_append hclosed,
        readLiterals_append_of_not_mem hmark]
    · intro h p hp
      rcases List.mem_cons.mp hp with rfl | hp
      · intro hopen
        rw [hclosed] at hopen
        cases hopen
      · exact hplain ((h.of_append hclosed).of_append (openAfter_of_not_mem hmark false)) p hp
  have hnext : ∀ (c : Char) (done s : List Char),
      (c :: done).reverse ++ s = done.reverse ++ c :: s := fun c done s ↦ by
    rw [List.reverse_cons, List.append_assoc, List.singleton_append]
  induction inside, s using cut_induction generalizing separator done with
  | nil inside =>
    rw [cut_nil, List.append_nil]
    constructor
    · exact List.append_nil _
    · intro h p hp
      obtain rfl := List.mem_singleton.mp hp
      exact h
  | quote inside s ih =>
    rw [cut_quote, ← hnext]
    exact ih separator (openAfter_reverse_cons hdone '"')
  | literal c s hc ih =>
    rw [cut_literal hc, ← hnext]
    exact ih separator ((openAfter_reverse_cons hdone c).trans (openAfter_cons hc _ _))
  | letter c s hquote hslash ih =>
    rw [cut_letter hquote hslash, ← hnext]
    exact ih separator ((openAfter_reverse_cons hdone c).trans (openAfter_cons hquote _ _))
  | direct s ih =>
    rw [cut_direct]
    have hmark : '"' ∉ ['/', '/'] := by decide
    exact hseparate separator hmark hdone (ih .direct rfl)
  | descend s hs ih =>
    rw [cut_descend hs]
    have hmark : '"' ∉ ['/'] := by decide
    exact hseparate separator hmark hdone (ih .descend rfl)

end Piece

/-! ## Segments -/

namespace QueryPlan

variable {query : String} {plan : QueryPlan} {pieces : List CleanPiece} {p : CleanPiece}

private theorem readLiterals_mapM_ofPiece {cutPieces : List Piece}
    (h : cutPieces.mapM CleanPiece.ofPiece = .ok pieces)
    (hplain : ∀ p ∈ cutPieces, EndsPlain p.text) :
    pieces.flatMap (fun p ↦ readLiterals none p.text) =
        cutPieces.flatMap (fun p ↦ readLiterals none p.text) ∧
      ∀ p ∈ pieces, EndsPlain p.text := by
  induction cutPieces generalizing pieces with
  | nil =>
    obtain rfl := Except.ok.inj h
    exact ⟨rfl, by simp⟩
  | cons piece rest ih =>
    rw [← List.singleton_append] at h
    obtain ⟨_, more, hpiece, hmore, rfl⟩ := exists_of_mapM_append h
    obtain ⟨p, hp, rfl⟩ := exists_of_mapM_singleton hpiece
    obtain ⟨hrest, hrestPlain⟩ := ih hmore fun q hq ↦ hplain q (List.mem_cons_of_mem piece hq)
    have hextracted : readLiterals none p.text = readLiterals none piece.text ∧
        EndsPlain p.text := by
      rw [CleanPiece.ofPiece] at hp
      rcases hextract : Modifier.extract piece.text with cause | e
      · rw [hextract] at hp
        cases hp
      · rw [hextract] at hp
        obtain rfl := Except.ok.inj hp
        exact Modifier.readLiterals_extract hextract (hplain piece List.mem_cons_self)
    constructor
    · rw [List.singleton_append, List.flatMap_cons, List.flatMap_cons, hextracted.1, hrest]
    · simpa using ⟨hextracted.2, hrestPlain⟩

private theorem readLiterals_splitSymbol {text : List Char} (h : EndsPlain text) :
    readLiterals none (splitSymbol text).2 = readLiterals none text := by
  have htrim := readLiterals_trim h
  have hplain := endsPlain_trim text
  rw [splitSymbol]
  rcases htext : trim text with _ | ⟨c, rest⟩
  · rw [htext] at htrim
    exact htrim
  · rw [htext] at htrim hplain
    dsimp only
    rcases hsymbol : TypeSymbol.ofChar? c with _ | symbol
    · exact htrim
    · have hquote : c ≠ '"' := by
        rintro rfl
        have hnone : TypeSymbol.ofChar? '"' = none := by decide
        rw [hnone] at hsymbol
        cases hsymbol
      have hrest : EndsPlain rest :=
        EndsPlain.of_append (s := [c]) hplain (openAfter_cons hquote false [])
      exact (readLiterals_trim hrest).trans ((readLiterals_none_cons hquote rest).symm.trans htrim)

/-- Pieces that do not become segments have no literals, nor have those that stand for a slash. -/
theorem flatMap_arrange (carried : Bool) (pieces : List CleanPiece) :
    (arrange carried pieces).flatMap (fun p ↦ readLiterals none p.piece.text) =
        pieces.flatMap (fun p ↦ readLiterals none p.text) ∧
      ∀ p ∈ arrange carried pieces, p.implicit = true → p.piece.text = [] := by
  induction pieces generalizing carried with
  | nil => exact ⟨rfl, by simp [arrange]⟩
  | cons p rest ih =>
    rw [arrange]
    split
    · obtain ⟨hrest, himplicit⟩ := ih false
      constructor
      · rw [List.flatMap_cons, List.flatMap_cons, hrest]
      · simpa using himplicit
    · rename_i hempty
      have htext : p.text = [] := by simpa using hempty
      split
      · rename_i hlast
        obtain rfl : rest = [] := List.isEmpty_iff.mp (Bool.and_eq_true_iff.mp hlast).1
        exact ⟨rfl, by simp [htext]⟩
      · rw [List.flatMap_cons, htext]
        exact ih _

private theorem flatMap_leading (pieces : List CleanPiece) :
    (leading pieces).2.flatMap (fun p ↦ readLiterals none p.text) =
      pieces.flatMap (fun p ↦ readLiterals none p.text) := by
  rcases pieces with _ | ⟨first, _ | ⟨second, rest⟩⟩
  · rfl
  · rfl
  · rw [leading]
    split
    · rename_i hempty
      change _ = readLiterals none first.text ++ _
      rw [List.isEmpty_iff.mp hempty]
      rfl
    · rfl

private theorem literalsIn_segmentsOf (m : QueryModifiers) (isFirst : Bool)
    {placed : List PlacedPiece}
    (hplain : ∀ p ∈ placed, EndsPlain p.piece.text)
    (himplicit : ∀ p ∈ placed, p.implicit = true → p.piece.text = []) :
    (segmentsOf m isFirst placed).flatMap (fun s ↦ NameToken.literalsIn s.nameQuery) =
      placed.flatMap fun p ↦ readLiterals none p.piece.text := by
  induction placed generalizing isFirst with
  | nil => rfl
  | cons p rest ih =>
    rw [segmentsOf, List.flatMap_cons, List.flatMap_cons,
      ih false (fun q hq ↦ hplain q (List.mem_cons_of_mem p hq))
        fun q hq ↦ himplicit q (List.mem_cons_of_mem p hq)]
    refine congrArg (· ++ _) ?_
    rw [NameToken.literalsIn, NameToken.tokenize, literals_scan, segmentOf]
    by_cases h : p.implicit = true
    · simp [h, himplicit p List.mem_cons_self h]
    · simp only [h, Bool.false_eq_true, if_false, String.toList_ofList]
      exact readLiterals_splitSymbol (hplain p List.mem_cons_self)

/-- **No literal is lost.** What the segments of a query ask for literally, one segment after the
other, are the texts between the double quotes of the query without the blanks around it, each as it
is written and in order, empty ones left out; a quote that is not closed runs to the end. -/
theorem literals_segments (h : parseQuery query = .ok plan) :
    plan.segments.flatMap (fun s ↦ NameToken.literalsIn s.nameQuery) =
      literalsOf (trim query.toList) := by
  obtain ⟨pieces, hpieces, rfl⟩ := exists_ofPieces h
  rw [cleanPieces_eq] at hpieces
  obtain ⟨hcut, hcutPlain⟩ :=
    @Piece.readLiterals_cut false [] .start (trim query.toList) (openAfter_nil false)
  obtain ⟨hclean, hplain⟩ :=
    readLiterals_mapM_ofPiece hpieces (hcutPlain (endsPlain_trim query.toList))
  obtain ⟨hplaced, himplicit⟩ := flatMap_arrange false (leading pieces).2
  have hplacedPlain : ∀ p ∈ arrange false (leading pieces).2, EndsPlain p.piece.text := fun p hp ↦
    hplain p.piece (mem_of_mem_leading (mem_of_mem_arrange hp))
  rw [ofPieces_eq, literalsOf_eq]
  calc (segmentsOf (modifiersOf pieces) true (arrange false (leading pieces).2)).flatMap
          (fun s ↦ NameToken.literalsIn s.nameQuery)
      = (arrange false (leading pieces).2).flatMap (fun p ↦ readLiterals none p.piece.text) :=
        literalsIn_segmentsOf _ true hplacedPlain himplicit
    _ = (leading pieces).2.flatMap (fun p ↦ readLiterals none p.text) := hplaced
    _ = pieces.flatMap (fun p ↦ readLiterals none p.text) := flatMap_leading pieces
    _ = readLiterals none (trim query.toList) := hclean.trans hcut

/-- A slash, a modifier and a symbol are text where they stand in quotes, and blanks there stay. -/
theorem literals_segments_slashed :
    ∃ plan, parseQuery " @\" / --f \" a --f//\"\"@\"#b " = .ok plan ∧
      plan.segments.flatMap (fun s ↦ NameToken.literalsIn s.nameQuery) =
        [" / --f ".toList, "#b".toList] := by
  obtain ⟨plan, hplan⟩ : ∃ plan, parseQuery " @\" / --f \" a --f//\"\"@\"#b " = .ok plan :=
    ⟨_, rfl⟩
  exact ⟨plan, hplan, (literals_segments hplan).trans (by decide)⟩

end QueryPlan

end SceneSearch
