import SceneSearch.Proofs.Query.Rank
import SceneSearch.Proofs.Query.Shape

/-!
# The words of a query

Modifiers are taken out piece by piece, and in a piece chunk by chunk. Seen from the query they are
the words outside quotes that read as modifiers, where blanks, slashes and double quotes end a word.
`readWords` reads these words off the whole text, `map_modifiers_cleanPieces` says that pieces and
chunks come to the same, and `mem_readWords_iff` says which parts of a text are its words, without
reading it.

So a word is not delimited by blanks and slashes alone: behind the quote that closes a literal, or
in front of one that opens it, a modifier counts although it is glued to the literal.
-/

namespace SceneSearch

namespace Modifier

variable {inside : Bool} {word s t u blanks : List Char} {c : Char} {w : Modifier}

/-! ## Reading words -/

/-- Whether a character ends a word. -/
def endsWord (c : Char) : Bool := isBlank c || c == '/' || c == '"'

/-- The word that ends here, its characters reversed, if any have been read. -/
def pendingWord (word : List Char) : List (List Char) := if word.isEmpty then [] else [word.reverse]

/-- The words of a text outside quotes; `word` is what was read of the current one, reversed. -/
def readWords (inside : Bool) (word : List Char) : List Char → List (List Char)
  | [] => pendingWord word
  | c :: rest =>
    if inside then readWords (c ≠ '"') [] rest
    else if endsWord c then pendingWord word ++ readWords (c = '"') [] rest
    else readWords false (c :: word) rest

theorem readWords_inside (c : Char) (s : List Char) :
    readWords true word (c :: s) = readWords (c ≠ '"') [] s := by
  rw [readWords, if_pos rfl]

theorem readWords_end (hc : endsWord c = true) (s : List Char) :
    readWords false word (c :: s) = pendingWord word ++ readWords (c = '"') [] s := by
  rw [readWords, if_neg Bool.false_ne_true, if_pos hc]

theorem readWords_letter (hc : endsWord c = false) (s : List Char) :
    readWords false word (c :: s) = readWords false (c :: word) s := by
  rw [readWords, if_neg Bool.false_ne_true, if_neg (by simp [hc])]

private theorem readWords_append_slash (hclosed : openAfter inside s = false) :
    readWords inside word (s ++ '/' :: t) = readWords inside word s ++ readWords false [] t := by
  induction s generalizing inside word with
  | nil =>
    obtain rfl : inside = false := hclosed
    rw [List.nil_append, readWords_end (by decide)]
    rfl
  | cons c rest ih =>
    rw [List.cons_append]
    have hrest : openAfter (inside ^^ decide (c = '"')) rest = false := by
      by_cases hquote : c = '"'
      · subst hquote
        simpa using hclosed
      · rw [openAfter_cons hquote] at hclosed
        simpa [hquote] using hclosed
    cases inside with
    | true =>
      rw [readWords_inside, readWords_inside]
      exact ih (by simpa using hrest)
    | false =>
      rw [Bool.false_xor] at hrest
      by_cases hc : endsWord c = true
      · rw [readWords_end hc, readWords_end hc, ih hrest, List.append_assoc]
      · rw [Bool.not_eq_true] at hc
        have hquote : c ≠ '"' := by
          rintro rfl
          exact absurd hc (by decide)
        rw [readWords_letter hc, readWords_letter hc]
        exact ih (by simpa [hquote] using hrest)

private theorem flatMap_readWords_cut {separator : Separator} {done : List Char}
    (hdone : openAfter false done.reverse = inside) :
    (Piece.cut separator inside done s).flatMap (fun p ↦ readWords false [] p.text) =
      readWords false [] (done.reverse ++ s) := by
  induction inside, s using Piece.cut_induction generalizing separator done with
  | nil inside => rw [Piece.cut_nil, List.flatMap_singleton, List.append_nil]
  | quote inside s ih =>
    rw [Piece.cut_quote, ih (Piece.openAfter_reverse_cons hdone '"'), List.reverse_cons,
      List.append_assoc, List.singleton_append]
  | literal c s hc ih =>
    rw [Piece.cut_literal hc,
      ih ((Piece.openAfter_reverse_cons hdone c).trans (openAfter_cons hc _ _)), List.reverse_cons,
      List.append_assoc, List.singleton_append]
  | letter c s hquote hslash ih =>
    rw [Piece.cut_letter hquote hslash,
      ih ((Piece.openAfter_reverse_cons hdone c).trans (openAfter_cons hquote _ _)),
      List.reverse_cons, List.append_assoc, List.singleton_append]
  | direct s ih =>
    rw [Piece.cut_direct, List.flatMap_cons, @ih .direct [] rfl, readWords_append_slash hdone,
      readWords_end (by decide)]
    rfl
  | descend s hs ih =>
    rw [Piece.cut_descend hs, List.flatMap_cons, @ih .descend [] rfl, readWords_append_slash hdone]
    rfl

/-! ## The modifiers among words -/

/-- The modifiers among words; of numbers with too many digits the first one is refused. -/
def amongWords (words : List (List Char)) : Except TooManyDigits (List Modifier) :=
  (words.filterMap wording?).mapM ofWording

theorem amongWords_append (words more : List (List Char)) :
    amongWords (words ++ more) =
      (amongWords words).bind fun first ↦ (amongWords more).map (first ++ ·) := by
  rw [amongWords, List.filterMap_append, List.mapM_append]
  rfl

private theorem map_modifiers_join (x y : Except TooManyDigits Extraction) :
    (join x y).map Extraction.modifiers =
      (x.map Extraction.modifiers).bind fun first ↦
        (y.map Extraction.modifiers).map (first ++ ·) := by
  cases x <;> cases y <;> rfl

private theorem map_modifiers_keep_join (text : List Char) (x : Except TooManyDigits Extraction) :
    (join (keep text) x).map Extraction.modifiers = x.map Extraction.modifiers := by
  cases x <;> rfl

private theorem map_modifiers_ending (word : List Char) :
    (ending word).map Extraction.modifiers = amongWords (pendingWord word) := by
  rw [ending, pendingWord]
  rcases word with _ | ⟨c, word⟩
  · rfl
  · change _ = amongWords [(c :: word).reverse]
    rw [amongWords, List.filterMap_cons, List.filterMap_nil]
    cases wording? (c :: word).reverse with
    | none => rfl
    | some wording =>
      change _ = [wording].mapM ofWording
      rw [List.mapM_cons]
      rcases hmodifier : ofWording wording with cause | modifier
      · simp only [hmodifier]
        rfl
      · simp only [hmodifier]
        rfl

/-- Where slashes stand in quotes, what is taken out of a text are the modifiers among its words. -/
theorem map_modifiers_takeAlong (hinside : inside = true → word = [])
    (hslash : ∀ before after, s = before ++ '/' :: after → openAfter inside before = true) :
    (takeAlong inside word s).map Extraction.modifiers = amongWords (readWords inside word s) := by
  induction s generalizing inside word with
  | nil =>
    cases inside with
    | true =>
      obtain rfl := hinside rfl
      rfl
    | false => exact map_modifiers_ending word
  | cons c rest ih =>
    have hrest : ∀ before after, rest = before ++ '/' :: after →
        openAfter (openAfter inside [c]) before = true := by
      rintro before after rfl
      rw [← openAfter_append]
      exact hslash (c :: before) after rfl
    by_cases hquote : c = '"'
    · subst hquote
      cases inside with
      | true =>
        rw [takeAlong_true_quote, map_modifiers_keep_join, readWords_inside]
        exact @ih false [] nofun hrest
      | false =>
        rw [takeAlong_false_quote, readWords_end (by decide), map_modifiers_join,
          map_modifiers_keep_join, map_modifiers_ending, amongWords_append,
          @ih true [] (fun _ ↦ rfl) hrest]
        rfl
    · rw [openAfter_cons hquote] at hrest
      cases inside with
      | true =>
        rw [takeAlong_true_cons hquote, map_modifiers_keep_join, readWords_inside,
          decide_eq_true hquote]
        exact @ih true [] (fun _ ↦ rfl) hrest
      | false =>
        have hc : c ≠ '/' := by
          rintro rfl
          exact Bool.false_ne_true (hslash [] rest rfl)
        by_cases hblank : isBlank c = true
        · rw [takeAlong_blank hblank, readWords_end (by simp [endsWord, hblank]),
            map_modifiers_join, map_modifiers_keep_join, map_modifiers_ending, amongWords_append,
            decide_eq_false hquote, @ih false [] nofun hrest]
        · rw [takeAlong_letter hquote hblank, readWords_letter (by simp [endsWord, *])]
          exact ih nofun hrest

theorem mem_amongWords {words : List (List Char)} {modifiers : List Modifier}
    (h : amongWords words = .ok modifiers) (w : Modifier) :
    w ∈ modifiers ↔
      ∃ u ∈ words, ∃ wording, wording? u = some wording ∧ ofWording wording = .ok w := by
  rw [mem_of_mapM h]
  simp only [List.mem_filterMap]
  grind

/-! ## Words as parts of a text -/

/-- A part of a text outside quotes that ends where a word ends, on both sides. -/
def IsWord (inside : Bool) (u s : List Char) : Prop :=
  ∃ before after, s = before ++ u ++ after ∧ openAfter inside before = false ∧
    (∀ c, before.getLast? = some c → endsWord c = true) ∧
    ∀ c, after.head? = some c → endsWord c = true

private theorem openAfter_of_plain (h : ∀ c ∈ s, endsWord c = false) :
    openAfter inside s = inside :=
  openAfter_of_not_mem (fun hmem ↦ absurd (h '"' hmem) (by decide)) inside

private theorem openAfter_cons_decide (c : Char) (s : List Char) :
    openAfter false (c :: s) = openAfter (c = '"') s := by
  by_cases hc : c = '"'
  · subst hc
    rfl
  · rw [openAfter_cons hc, decide_eq_false hc]

/-- In front of what ends a word there is one word, and the others are behind that. -/
theorem isWord_append (hne : u ≠ []) (hu : ∀ c ∈ u, endsWord c = false)
    (hs : ∀ c ∈ s, endsWord c = false) (ht : ∀ c, t.head? = some c → endsWord c = true) :
    IsWord false u (s ++ t) ↔ u = s ∨ ∃ c rest, t = c :: rest ∧ IsWord (c = '"') u rest := by
  constructor
  · rintro ⟨before, after, heq, hopen, hbefore, hafter⟩
    rw [List.append_assoc] at heq
    rcases List.append_eq_append_iff.mp heq with ⟨more, rfl, hmore⟩ | ⟨more, rfl, hmore⟩
    · rcases more with _ | ⟨c, more⟩
      · obtain ⟨d, v, rfl⟩ := List.exists_cons_of_ne_nil hne
        have hd : endsWord d = true := ht d (by rw [hmore]; rfl)
        rw [hu d List.mem_cons_self] at hd
        cases hd
      · refine Or.inr ⟨c, _, hmore, more, after, (List.append_assoc ..).symm, ?_, ?_, hafter⟩
        · rwa [openAfter_append, openAfter_of_plain hs, openAfter_cons_decide] at hopen
        · intro d hd
          refine hbefore d ?_
          rw [List.getLast?_append, List.getLast?_cons, hd]
          rfl
    · have hnil : before = [] := by
        by_contra hsome
        have hlast := List.getLast?_eq_some_getLast hsome
        have hplain := hs _ (List.mem_append_left _ (List.getLast_mem hsome))
        rw [hbefore _ hlast] at hplain
        cases hplain
      subst hnil
      rw [List.nil_append] at hs ⊢
      refine Or.inl ?_
      rcases List.append_eq_append_iff.mp hmore with ⟨v, rfl, rfl⟩ | ⟨v, rfl, rfl⟩
      · rcases v with _ | ⟨d, v⟩
        · rw [List.append_nil]
        · have hd : endsWord d = true := hafter d rfl
          rw [hs d (by simp)] at hd
          cases hd
      · rcases v with _ | ⟨d, v⟩
        · rw [List.append_nil]
        · have hd : endsWord d = true := ht d rfl
          rw [hu d (by simp)] at hd
          cases hd
  · rintro (rfl | ⟨c, rest, rfl, before, after, rfl, hopen, hbefore, hafter⟩)
    · exact ⟨[], t, by simp, rfl, by simp, ht⟩
    · refine ⟨s ++ c :: before, after, by simp, ?_, ?_, hafter⟩
      · rw [openAfter_append, openAfter_of_plain hs, openAfter_cons_decide, hopen]
      · intro d hd
        rw [List.getLast?_append, List.getLast?_cons, Option.some_or] at hd
        obtain rfl := Option.some.inj hd
        rcases hlast : before.getLast? with _ | e
        · exact ht c rfl
        · exact hbefore e hlast

private theorem isWord_inside (c : Char) (s : List Char) :
    IsWord true u (c :: s) ↔ IsWord (c ≠ '"') u s := by
  have hopen : ∀ v, openAfter true (c :: v) = openAfter (c ≠ '"') v := by
    intro v
    by_cases hc : c = '"'
    · subst hc
      rfl
    · rw [openAfter_cons hc, decide_eq_true hc]
  constructor
  · rintro ⟨before, after, heq, hclosed, hbefore, hafter⟩
    rcases before with _ | ⟨d, before⟩
    · cases hclosed
    · rw [List.append_assoc, List.cons_append] at heq
      obtain ⟨rfl, rfl⟩ := List.cons.inj heq
      refine ⟨before, after, (List.append_assoc ..).symm, (hopen before).symm.trans hclosed, ?_,
        hafter⟩
      intro d hd
      refine hbefore d ?_
      rw [List.getLast?_cons, hd]
      rfl
  · rintro ⟨before, after, rfl, hclosed, hbefore, hafter⟩
    refine ⟨c :: before, after, by simp, (hopen before).trans hclosed, ?_, hafter⟩
    intro d hd
    rw [List.getLast?_cons] at hd
    obtain rfl := Option.some.inj hd
    rcases hlast : before.getLast? with _ | e
    · -- a word right behind the character is outside quotes only if this closes them
      rw [List.getLast?_eq_none_iff.mp hlast, openAfter_nil] at hclosed
      have hquote : c = '"' := by simpa using hclosed
      rw [hquote]
      rfl
    · exact hbefore e hlast

theorem mem_pendingWord (hne : u ≠ []) : u ∈ pendingWord word ↔ u = word.reverse := by
  rcases word with _ | ⟨c, word⟩
  · simp [pendingWord, hne]
  · rw [pendingWord, if_neg (by simp), List.mem_singleton]

/-- **The words that are read** are the parts of the text that end where a word ends. -/
theorem mem_readWords_iff (hne : u ≠ []) (hu : ∀ c ∈ u, endsWord c = false)
    (hword : ∀ c ∈ word, endsWord c = false) (hinside : inside = true → word = []) :
    u ∈ readWords inside word s ↔ IsWord inside u (word.reverse ++ s) := by
  induction s generalizing inside word with
  | nil =>
    rw [readWords, mem_pendingWord hne]
    cases inside with
    | true =>
      obtain rfl := hinside rfl
      refine iff_of_false hne ?_
      rintro ⟨before, after, heq, hclosed, -⟩
      obtain rfl : before = [] := by simp_all
      cases hclosed
    | false =>
      rw [isWord_append hne hu (by simpa using hword) (by simp)]
      simp
  | cons c rest ih =>
    cases inside with
    | true =>
      obtain rfl := hinside rfl
      rw [readWords_inside, ih (by simp) fun _ ↦ rfl]
      exact (isWord_inside c rest).symm
    | false =>
      by_cases hc : endsWord c = true
      · rw [readWords_end hc, List.mem_append, mem_pendingWord hne, ih (by simp) fun _ ↦ rfl,
          isWord_append hne hu (by simpa using hword) (by simpa using hc)]
        simp
      · rw [Bool.not_eq_true] at hc
        rw [readWords_letter hc, @ih false _ (List.forall_mem_cons.mpr ⟨hc, hword⟩) nofun,
          List.reverse_cons, List.append_assoc, List.singleton_append]

/-! ## How modifiers are written -/

/-- The words that are modifiers: two dashes and a letter or two, or two dashes and a number, its
digits of any script, with an `e` behind it or not. -/
inductive Written : List Char → Modifier → Prop
  | firstOverall : Written ['-', '-', 'f'] .firstOverall
  | firstEach : Written ['-', '-', 'f', 'e'] .firstEach
  | hiddenOnly : Written ['-', '-', 'h'] .hiddenOnly
  | allLayers : Written ['-', '-', 'a'] .allLayers
  | number (digits : List Char) (each : Bool) (hne : digits ≠ [])
      (hdigits : ∀ c ∈ digits, isDigit c = true) (hlength : digits.length ≤ digitLimit) :
      Written ('-' :: '-' :: (digits ++ eachMark each)) (ofNumber each (decimalValue digits))

private theorem endsWord_of_isDigit (h : isDigit c = true) : endsWord c = false :=
  of_isDigit (P := fun c ↦ endsWord c = false) (by decide) h

theorem Written.plain (h : Written u w) : u ≠ [] ∧ ∀ c ∈ u, endsWord c = false := by
  cases h with
  | number digits each hne hdigits hlength =>
    have hmark : ∀ c ∈ eachMark each, endsWord c = false := by
      cases each with
      | false => exact nofun
      | true => exact List.forall_mem_singleton.mpr rfl
    refine ⟨List.cons_ne_nil _ _, ?_⟩
    simp only [List.forall_mem_cons, List.forall_mem_append]
    exact ⟨rfl, rfl, fun c hc ↦ endsWord_of_isDigit (hdigits c hc), hmark⟩
  | _ =>
    refine ⟨List.cons_ne_nil _ _, ?_⟩
    simp only [List.forall_mem_cons]
    exact ⟨rfl, rfl, by simp [endsWord, isBlank]⟩

/-- A word that reads as something is written as a flag, or as a number of any length. -/
theorem written_of_wording? {wording : Wording} (h : wording? u = some wording) :
    (∃ w, wording = .flag w ∧ Written u w) ∨
      ∃ digits each, wording = .digits digits each ∧ digits ≠ [] ∧
        (∀ c ∈ digits, isDigit c = true) ∧ u = '-' :: '-' :: (digits ++ eachMark each) := by
  obtain ⟨body, rfl, hspelling⟩ := wording?_eq_some_iff.mp h
  cases hspelling with
  | firstOverall => exact Or.inl ⟨_, rfl, .firstOverall⟩
  | firstEach => exact Or.inl ⟨_, rfl, .firstEach⟩
  | hiddenOnly => exact Or.inl ⟨_, rfl, .hiddenOnly⟩
  | allLayers => exact Or.inl ⟨_, rfl, .allLayers⟩
  | digits run each hne hdigits => exact Or.inr ⟨run, each, rfl, hne, hdigits, rfl⟩

theorem written_iff :
    Written u w ↔ ∃ wording, wording? u = some wording ∧ ofWording wording = .ok w := by
  constructor
  · intro h
    cases h with
    | number digits each hne hdigits hlength =>
      refine ⟨_, wording?_digits each hne hdigits, ?_⟩
      rw [ofWording, naturalOfDigits_eq_ok hlength]
      rfl
    | _ => exact ⟨_, rfl, rfl⟩
  · rintro ⟨wording, hwording, hof⟩
    rcases written_of_wording? hwording with
      ⟨w', rfl, hwritten⟩ | ⟨digits, each, rfl, hne, hdigits, rfl⟩
    · obtain rfl := Except.ok.inj hof
      exact hwritten
    · rw [ofWording] at hof
      rcases Nat.lt_or_ge digitLimit digits.length with hlong | hlength
      · rw [naturalOfDigits_eq_error hlong] at hof
        cases hof
      · rw [naturalOfDigits_eq_ok hlength] at hof
        obtain rfl := Except.ok.inj hof
        exact .number digits each hne hdigits hlength

end Modifier

namespace QueryPlan

open Modifier

variable {pieces : List CleanPiece} {query : String} {plan : QueryPlan} {inside : Bool}
  {word s blanks : List Char}

/-! ## The words of a query -/

theorem readWords_blanks_append (h : ∀ c ∈ blanks, isBlank c = true) :
    readWords false [] (blanks ++ s) = readWords false [] s := by
  induction blanks with
  | nil => rfl
  | cons c rest ih =>
    have hc : isBlank c = true := h c List.mem_cons_self
    rw [List.cons_append, readWords_end (by simp [endsWord, hc]),
      decide_eq_false (ne_quote_of_isBlank hc), ih fun d hd ↦ h d (List.mem_cons_of_mem c hd)]
    rfl

private theorem readWords_blanks (inside : Bool) (hinside : inside = true → word = [])
    (h : ∀ c ∈ blanks, isBlank c = true) : readWords inside word blanks = pendingWord word := by
  cases inside with
  | true =>
    obtain rfl := hinside rfl
    induction blanks with
    | nil => rfl
    | cons c rest ih =>
      rw [readWords_inside, decide_eq_true (ne_quote_of_isBlank (h c List.mem_cons_self)),
        ih fun d hd ↦ h d (List.mem_cons_of_mem c hd)]
  | false =>
    rcases blanks with _ | ⟨c, rest⟩
    · rfl
    · have hc : isBlank c = true := h c List.mem_cons_self
      have hrest := @readWords_blanks_append [] rest fun d hd ↦ h d (List.mem_cons_of_mem c hd)
      rw [List.append_nil] at hrest
      rw [readWords_end (by simp [endsWord, hc]), decide_eq_false (ne_quote_of_isBlank hc), hrest]
      exact List.append_nil _

private theorem readWords_append_blanks (hinside : inside = true → word = [])
    (h : ∀ c ∈ blanks, isBlank c = true) :
    readWords inside word (s ++ blanks) = readWords inside word s := by
  induction s generalizing inside word with
  | nil => exact readWords_blanks inside hinside h
  | cons c rest ih =>
    rw [List.cons_append, readWords, readWords, ih fun _ ↦ rfl, ih fun _ ↦ rfl, @ih false _ nofun]

theorem map_modifiers_mapM_ofPiece {cutPieces : List Piece}
    (h : ∀ p ∈ cutPieces, Piece.SlashesQuoted p.text) :
    (cutPieces.mapM CleanPiece.ofPiece).map (List.flatMap CleanPiece.modifiers) =
      amongWords (cutPieces.flatMap fun p ↦ readWords false [] p.text) := by
  induction cutPieces with
  | nil => rfl
  | cons p rest ih =>
    have hpiece : (CleanPiece.ofPiece p).map CleanPiece.modifiers =
        amongWords (readWords false [] p.text) := by
      rw [← map_modifiers_takeAlong (fun _ ↦ rfl) (h p List.mem_cons_self), CleanPiece.ofPiece,
        extract_eq]
      cases takeAlong false [] p.text <;> rfl
    rw [List.flatMap_cons, amongWords_append, ← hpiece,
      ← ih fun q hq ↦ h q (List.mem_cons_of_mem p hq), List.mapM_cons]
    cases CleanPiece.ofPiece p <;> cases rest.mapM CleanPiece.ofPiece <;> rfl

/-- **The modifiers of all pieces** are those among the words of the query, and there are none if a
word is a number with too many digits. -/
theorem map_modifiers_cleanPieces (query : String) :
    (cleanPieces query).map (List.flatMap CleanPiece.modifiers) =
      amongWords (readWords false [] query.toList) := by
  obtain ⟨front, back, hfront, hback, hquery⟩ := exists_trim_between query.toList
  have hwords : readWords false [] query.toList = readWords false [] (trim query.toList) := by
    calc readWords false [] query.toList
        = readWords false [] (front ++ (trim query.toList ++ back)) := by
          rw [← List.append_assoc, ← hquery]
      _ = readWords false [] (trim query.toList ++ back) := readWords_blanks_append hfront
      _ = readWords false [] (trim query.toList) := readWords_append_blanks (fun _ ↦ rfl) hback
  have hcut := @flatMap_readWords_cut false (trim query.toList) .start [] rfl
  rw [cleanPieces_eq, cleanCut, map_modifiers_mapM_ofPiece, hcut, hwords]
  · rfl
  · intro p hp
    exact @Piece.slashesQuoted_of_mem_cut .start false [] _ p rfl Piece.slashesQuoted_nil hp

/-! ## What counts as a modifier -/

/-- A modifier stands in a query as a word outside quotes: in front of it and behind it is the end
of the query, a blank, a slash or a double quote. -/
def StandsAsWord (query : String) (w : Modifier) : Prop :=
  ∃ before word after, query.toList = before ++ word ++ after ∧ Even (before.count '"') ∧
    Written word w ∧ (∀ c, before.getLast? = some c → isBlank c = true ∨ c = '/' ∨ c = '"') ∧
    ∀ c, after.head? = some c → isBlank c = true ∨ c = '/' ∨ c = '"'

theorem standsAsWord_iff {w : Modifier} :
    StandsAsWord query w ↔ ∃ word, Written word w ∧ IsWord false word query.toList := by
  have hends : ∀ c, endsWord c = true ↔ isBlank c = true ∨ c = '/' ∨ c = '"' := by
    simp [endsWord, or_assoc]
  constructor
  · rintro ⟨before, word, after, heq, hopen, hwritten, hbefore, hafter⟩
    exact ⟨word, hwritten, before, after, heq, openAfter_eq_false_iff.mpr hopen,
      fun c hc ↦ (hends c).mpr (hbefore c hc), fun c hc ↦ (hends c).mpr (hafter c hc)⟩
  · rintro ⟨word, hwritten, before, after, heq, hopen, hbefore, hafter⟩
    exact ⟨before, word, after, heq, openAfter_eq_false_iff.mp hopen, hwritten,
      fun c hc ↦ (hends c).mp (hbefore c hc), fun c hc ↦ (hends c).mp (hafter c hc)⟩

/-- What is taken out of the pieces of a query is what stands in the query as a word. -/
theorem given_iff_standsAsWord (hpieces : cleanPieces query = .ok pieces) (w : Modifier) :
    Given pieces w ↔ StandsAsWord query w := by
  have hwords := map_modifiers_cleanPieces query
  rw [hpieces] at hwords
  rw [standsAsWord_iff, Given, ← List.mem_flatMap, mem_amongWords hwords.symm]
  constructor
  · rintro ⟨word, hword, hreads⟩
    have hwritten := written_iff.mpr hreads
    obtain ⟨hne, hplain⟩ := hwritten.plain
    exact ⟨word, hwritten, (mem_readWords_iff hne hplain (by simp) fun _ ↦ rfl).mp hword⟩
  · rintro ⟨word, hwritten, hword⟩
    obtain ⟨hne, hplain⟩ := hwritten.plain
    exact ⟨word, (mem_readWords_iff hne hplain (by simp) fun _ ↦ rfl).mpr hword,
      written_iff.mp hwritten⟩

theorem given_of_index (hne : pieces ≠ []) {n : Nat} :
    ((modifiersOf pieces).index = some n → Given pieces (.index n)) ∧
      ((modifiersOf pieces).indexEach = some n → Given pieces (.indexEach n)) := by
  have hlast := List.getLast?_eq_some_getLast hne
  have hmem : pieces.getLast hne ∈ pieces := List.getLast_mem hne
  obtain ⟨hindex, heach⟩ := modifiersOf_of_getLast? hlast
  rw [hindex, heach]
  exact ⟨fun h ↦ ⟨_, hmem, (lastIndex?_eq_some.mp h).mem⟩,
    fun h ↦ ⟨_, hmem, (lastIndexEach?_eq_some.mp h).mem⟩⟩

private theorem given_of_pick (hne : pieces ≠ []) {p : CleanPiece} (hp : p ∈ pieces)
    {isFinal : Bool}
    {pick : RankPick} (h : pickFor (modifiersOf pieces) p isFinal = some pick) :
    (∃ n : Nat, Given pieces (.index n) ∧ pick = ⟨.overall, n⟩) ∨
      (∃ n : Nat, Given pieces (.indexEach n) ∧ pick = ⟨.perScope, n⟩) ∨
      Given pieces .firstEach ∧ pick = ⟨.perScope, 1⟩ := by
  have hfirst : (modifiersOf pieces).firstOverall = false := by
    rw [Bool.eq_false_iff]
    intro hfirst
    rw [pickFor, if_pos hfirst] at h
    cases h
  cases isFinal with
  | true =>
    rcases (pickFor_final hfirst p pick).mp h with ⟨n, hn, rfl⟩ | ⟨-, hfe, rfl⟩
    · exact Or.inr (Or.inl ⟨n, (given_of_index hne).2 hn, rfl⟩)
    · exact Or.inr (Or.inr ⟨contains_iff_given.mp hfe, rfl⟩)
  | false =>
    rcases (pickFor_inner hfirst p pick).mp h with ⟨n, hn, rfl⟩ | ⟨-, n, hn, rfl⟩
    · exact Or.inr (Or.inl ⟨n, ⟨p, hp, hn.mem⟩, rfl⟩)
    · exact Or.inl ⟨n, ⟨p, hp, hn.mem⟩, rfl⟩

/-- **What counts as a modifier.** A flag is set exactly if it stands in the query as a word outside
quotes, where a double quote ends a word as blanks and slashes do; and every index that the query
has, every pick of a segment and every choice at the end comes from such a word. -/
theorem modifiers_standAsWords (h : parseQuery query = .ok plan) :
    (plan.modifiers.firstOverall = true ↔ StandsAsWord query .firstOverall) ∧
      (plan.modifiers.firstEach = true ↔ StandsAsWord query .firstEach) ∧
      (plan.modifiers.hiddenOnly = true ↔ StandsAsWord query .hiddenOnly) ∧
      (plan.modifiers.allLayers = true ↔ StandsAsWord query .allLayers) ∧
      (∀ n, plan.modifiers.index = some n → StandsAsWord query (.index n)) ∧
      (∀ n, plan.modifiers.indexEach = some n → StandsAsWord query (.indexEach n)) ∧
      (∀ segment ∈ plan.segments, ∀ pick, segment.pick = some pick →
        (∃ n : Nat, StandsAsWord query (.index n) ∧ pick = ⟨.overall, n⟩) ∨
        (∃ n : Nat, StandsAsWord query (.indexEach n) ∧ pick = ⟨.perScope, n⟩) ∨
        StandsAsWord query .firstEach ∧ pick = ⟨.perScope, 1⟩) ∧
      (∀ pick, plan.finalPick = some pick →
        ∃ n : Nat, StandsAsWord query (.index n) ∧ pick = ⟨.overall, n⟩) ∧
      ∃ pieces, cleanPieces query = .ok pieces ∧
        ∀ w, (∃ p ∈ pieces, w ∈ p.modifiers) ↔ StandsAsWord query w := by
  obtain ⟨pieces, hpieces, rfl⟩ := exists_ofPieces h
  have hgiven := given_iff_standsAsWord hpieces
  have hne : pieces ≠ [] := by
    obtain ⟨first, rest, rfl, -⟩ := exists_cleanPieces hpieces
    exact List.cons_ne_nil first rest
  simp only [← hgiven]
  rw [ofPieces_eq]
  refine ⟨contains_iff_given, contains_iff_given, contains_iff_given, contains_iff_given,
    fun n ↦ (given_of_index hne).1, fun n ↦ (given_of_index hne).2, ?_, ?_,
    pieces, hpieces, fun w ↦ Iff.rfl⟩
  · intro segment hsegment pick hpick
    obtain ⟨k, hk⟩ := List.mem_iff_getElem?.mp hsegment
    rw [assembled, getElem?_segmentsOf] at hk
    obtain ⟨q, hq, rfl⟩ := Option.map_eq_some_iff.mp hk
    refine given_of_pick hne ?_ hpick
    exact mem_of_mem_leading (mem_of_mem_arrange (List.mem_of_getElem? hq))
  · intro pick hpick
    obtain ⟨-, -, n, hn, rfl⟩ := (finalPick_assembled ..).mp hpick
    exact ⟨n, (given_of_index hne).1 hn, rfl⟩

/-- Modifiers between literals, slashes and letters. -/
theorem modifiers_standAsWords_glued :
    ∃ plan, parseQuery "@\"A --a\"--f/B--h --2\"C\"" = .ok plan ∧
      StandsAsWord "@\"A --a\"--f/B--h --2\"C\"" .firstOverall ∧
      ¬StandsAsWord "@\"A --a\"--f/B--h --2\"C\"" .hiddenOnly ∧
      ¬StandsAsWord "@\"A --a\"--f/B--h --2\"C\"" .allLayers ∧
      StandsAsWord "@\"A --a\"--f/B--h --2\"C\"" (.index 2) := by
  obtain ⟨plan, hplan⟩ : ∃ plan, parseQuery "@\"A --a\"--f/B--h --2\"C\"" = .ok plan := ⟨_, rfl⟩
  have hvalue := Except.ok.inj hplan
  obtain ⟨hfirst, -, hhidden, hall, hindex, -⟩ := modifiers_standAsWords hplan
  refine ⟨plan, hplan, hfirst.mp ?_, fun h ↦ absurd (hhidden.mpr h) ?_,
    fun h ↦ absurd (hall.mpr h) ?_, hindex 2 ?_⟩ <;>
    (rw [← hvalue]; decide)

/-- A flag that is glued to a literal counts, though neither the start of the query nor a blank nor
a slash is in front of it. -/
theorem flag_counts_behind_quote :
    ∃ plan, parseQuery "\"x\"--f" = .ok plan ∧ plan.modifiers.firstOverall = true ∧
      ¬∃ before after, "\"x\"--f".toList = before ++ "--f".toList ++ after ∧
        (∀ c, before.getLast? = some c → isBlank c = true ∨ c = '/') ∧
        ∀ c, after.head? = some c → isBlank c = true ∨ c = '/' := by
  refine ⟨_, rfl, by decide, ?_⟩
  rintro ⟨before, after, heq, hbefore, -⟩
  -- the flag is the end of the query, so what is in front of it ends with the quote
  have hfront : before = "\"x\"".toList := by
    rcases before with _ | ⟨a, _ | ⟨b, _ | ⟨c, before⟩⟩⟩
    · cases heq
    · cases heq
    · cases heq
    · have hlength := congrArg List.length heq
      simp only [List.length_append, List.length_cons] at hlength
      obtain rfl : before = [] := List.length_eq_zero_iff.mp (by simp at hlength; omega)
      obtain ⟨rfl, rfl, rfl, -⟩ : '"' = a ∧ 'x' = b ∧ '"' = c ∧ after = [] := by simpa using heq
      rfl
  subst hfront
  exact absurd (hbefore '"' rfl) (by decide)

end QueryPlan

end SceneSearch
