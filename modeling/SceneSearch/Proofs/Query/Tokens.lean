import SceneSearch.Proofs.Query.Extraction
import SceneSearch.Query.Name

/-!
# The tokens of a name query

Tokens are read character by character, with the open quote and the current token as the memory. The
double quotes of a query also cut it into parts, and the tokens are those of one part after the
other: the words of a part outside quotes, the whole of a part inside quotes. `scan_eq` says that
both come to the same, wherever reading has got to.

A name has what a query asks for if all tokens occur in it. The exception are queries that ask for
the whole name, `AsksWhole`. In a query whose quotes come in pairs a single literal always asks for
the whole name, so for the other ones a blank between two queries means that both are asked.
-/

namespace SceneSearch

/-! ## Words of a text -/

/-- The words of a text: its parts between blanks, if not empty. -/
def wordsIn (s : List Char) : List (List Char) := (s.splitOnP isBlank).filter fun w ↦ !w.isEmpty

theorem wordsIn_of_plain {w : List Char} (h : ∀ c ∈ w, isBlank c = false) :
    wordsIn w = if w.isEmpty then [] else [w] := by
  rw [wordsIn, List.splitOnP_eq_singleton h]
  cases w <;> rfl

theorem wordsIn_append_blank {c : Char} (hc : isBlank c = true) (s t : List Char) :
    wordsIn (s ++ c :: t) = wordsIn s ++ wordsIn t := by
  rw [wordsIn, List.splitOnP_append_cons s t hc, List.filter_append, wordsIn, wordsIn]

namespace NameToken

variable {inside : Bool} {k : Nat} {done s t : List Char} {c : Char} {first second query : String}

/-! ## Part by part -/

/-- The tokens of a part of a query that has `k` double quotes in front of it: outside quotes its
words, inside quotes the part as it is, if not empty. -/
def ofPart (k : Nat) (part : List Char) : List NameToken :=
  if Even k then (wordsIn part).map word else if part.isEmpty then [] else [literal part]

/-- The tokens of parts that follow each other, with `k` double quotes in front of the first. -/
def ofParts (k : Nat) (parts : List (List Char)) : List NameToken :=
  (parts.zipIdx k).flatMap fun p ↦ ofPart p.2 p.1

theorem ofParts_cons (k : Nat) (part : List Char) (parts : List (List Char)) :
    ofParts k (part :: parts) = ofPart k part ++ ofParts (k + 1) parts := by
  rw [ofParts, List.zipIdx_cons, List.flatMap_cons, ofParts]

/-- The token that ends where a part ends. -/
def pending (inside : Bool) (done : List Char) : List NameToken :=
  if inside then pendingLiteral done else pendingWord done

/-- What reading remembers fits the number of quotes that it has passed: this number is odd if a
quote is open, and a word that is being read has no blanks. -/
structure Reads (inside : Bool) (k : Nat) (done : List Char) : Prop where
  /-- A quote is open behind an odd number of quotes. -/
  even_iff : Even k ↔ inside = false
  /-- A word has no blanks. -/
  plain : inside = false → ∀ c ∈ done, isBlank c = false

namespace Reads

private theorem quote (h : Reads inside k done) : Reads (!inside) (k + 1) [] where
  even_iff := by rw [Nat.even_add_one, h.even_iff]; simp
  plain := by simp

private theorem blank (h : Reads inside k done) : Reads inside k [] where
  even_iff := h.even_iff
  plain := by simp

private theorem letter (h : Reads inside k done) (hc : inside = false → isBlank c = false) :
    Reads inside k (c :: done) where
  even_iff := h.even_iff
  plain := fun hinside ↦ List.forall_mem_cons.mpr ⟨hc hinside, h.plain hinside⟩

private theorem pending_eq (h : Reads inside k done) :
    pending inside done = ofPart k done.reverse := by
  cases inside with
  | true =>
    rw [ofPart, if_neg (by simp [h.even_iff]), List.isEmpty_reverse]
    rfl
  | false =>
    rw [ofPart, if_pos (h.even_iff.mpr rfl), wordsIn_of_plain (by simpa using h.plain rfl),
      List.isEmpty_reverse, pending, if_neg Bool.false_ne_true, pendingWord]
    split <;> rfl

end Reads

theorem scan_quote (s : List Char) :
    scan inside done ('"' :: s) = pending inside done ++ scan (!inside) [] s := rfl

theorem scan_blank (hc : isBlank c = true) (s : List Char) :
    scan false done (c :: s) = pendingWord done ++ scan false [] s := by
  rw [scan, if_neg (Modifier.ne_quote_of_isBlank hc), if_pos (by simp [hc])]

theorem scan_letter (hquote : c ≠ '"') (hc : inside = false → isBlank c = false) (s : List Char) :
    scan inside done (c :: s) = scan inside (c :: done) s := by
  rw [scan, if_neg hquote, if_neg]
  cases inside <;> simp [hc]

/-- **Reading character by character and part by part** finds the same tokens. What has been read
of the current token belongs to the first part. -/
theorem scan_eq (h : Reads inside k done) (s : List Char) :
    scan inside done s = ofParts k ((Modifier.chunks s).modifyHead (done.reverse ++ ·)) := by
  induction s generalizing inside k done with
  | nil =>
    change pending inside done = ofParts k [done.reverse ++ []]
    rw [List.append_nil, ofParts_cons, h.pending_eq]
    exact (List.append_nil _).symm
  | cons c rest ih =>
    obtain ⟨part, parts, hchunks⟩ := List.exists_cons_of_ne_nil (List.splitOn_ne_nil '"' rest)
    have hrest : Modifier.chunks rest = part :: parts := hchunks
    simp only [hrest, List.modifyHead_cons] at ih
    by_cases hquote : c = '"'
    · subst hquote
      rw [scan_quote, ih h.quote, Modifier.chunks_quote, hrest, List.modifyHead_cons,
        List.append_nil, ofParts_cons k, h.pending_eq]
      rfl
    · rw [Modifier.chunks_cons hquote, hrest, List.modifyHead_cons, List.modifyHead_cons]
      by_cases hblank : inside = false ∧ isBlank c = true
      · obtain ⟨rfl, hc⟩ := hblank
        have hsplit : ofPart k (done.reverse ++ c :: part) =
            ofPart k done.reverse ++ ofPart k part := by
          simp only [ofPart, if_pos (h.even_iff.mpr rfl)]
          rw [wordsIn_append_blank hc, List.map_append]
        rw [scan_blank hc, ih h.blank, ofParts_cons, ofParts_cons, hsplit, ← h.pending_eq,
          List.append_assoc]
        rfl
      · have hc : inside = false → isBlank c = false := by simpa using hblank
        rw [scan_letter hquote hc, ih (h.letter hc), List.reverse_cons, List.append_assoc,
          List.singleton_append]

theorem reads_start : Reads false 0 [] where
  even_iff := by simp
  plain := by simp

theorem tokenize_eq (query : String) :
    tokenize query = ofParts 0 (query.toList.splitOn '"') := by
  obtain ⟨part, parts, hchunks⟩ :=
    List.exists_cons_of_ne_nil (List.splitOn_ne_nil '"' query.toList)
  rw [tokenize, scan_eq reads_start, Modifier.chunks, hchunks]
  rfl

/-! ## Queries put together -/

private theorem scan_append_blank (hclosed : openAfter inside s = false) (hc : isBlank c = true)
    (t : List Char) : scan inside done (s ++ c :: t) = scan inside done s ++ scan false [] t := by
  induction s generalizing inside done with
  | nil =>
    obtain rfl : inside = false := hclosed
    exact scan_blank hc t
  | cons d rest ih =>
    rw [List.cons_append]
    by_cases hquote : d = '"'
    · subst hquote
      rw [openAfter_quote] at hclosed
      rw [scan_quote, scan_quote, ih hclosed, List.append_assoc]
    · rw [openAfter_cons hquote] at hclosed
      by_cases hblank : inside = false ∧ isBlank d = true
      · obtain ⟨rfl, hd⟩ := hblank
        rw [scan_blank hd, scan_blank hd, ih hclosed, List.append_assoc]
      · have hd : inside = false → isBlank d = false := by simpa using hblank
        rw [scan_letter hquote hd, scan_letter hquote hd, ih hclosed]

/-- The tokens of two queries with a blank in between are those of one and of the other, if the
first one leaves no quote open. -/
theorem tokenize_append (hclosed : Even (first.toList.count '"')) (second : String) :
    tokenize (first ++ " " ++ second) = tokenize first ++ tokenize second := by
  have hlist : (first ++ " " ++ second).toList = first.toList ++ ' ' :: second.toList := by simp
  rw [tokenize, hlist, scan_append_blank (openAfter_eq_false_iff.mpr hclosed) (by decide)]
  rfl

/-! ## Queries that ask for the whole name -/

/-- A query asks for the whole name: this literal is its only token, and it starts and ends with a
double quote, blanks around it apart. -/
structure AsksWhole (query : String) (t : List Char) : Prop where
  /-- There is one token, a literal. -/
  tokens : tokenize query = [literal t]
  /-- The two quotes are not the same. -/
  length : 2 ≤ (trim query.toList).length
  /-- The first character is a quote. -/
  head : (trim query.toList).head? = some '"'
  /-- The last character is a quote. -/
  last : (trim query.toList).getLast? = some '"'

theorem isFullyQuoted_iff : isFullyQuoted query = true ↔ 2 ≤ (trim query.toList).length ∧
    (trim query.toList).head? = some '"' ∧ (trim query.toList).getLast? = some '"' := by
  simp [isFullyQuoted, and_assoc]

theorem asksWhole_iff :
    AsksWhole query t ↔ tokenize query = [literal t] ∧ isFullyQuoted query = true := by
  rw [isFullyQuoted_iff]
  exact ⟨fun h ↦ ⟨h.tokens, h.length, h.head, h.last⟩, fun ⟨h, hlength, hhead, hlast⟩ ↦
    ⟨h, hlength, hhead, hlast⟩⟩

theorem exists_word_mem_scan_of_ne_nil (hdone : done ≠ []) (s : List Char) :
    ∃ w, word w ∈ scan false done s := by
  have hpending : word done.reverse ∈ pendingWord done := by
    rw [pendingWord, if_neg (by simpa using hdone)]
    exact List.mem_singleton_self _
  induction s generalizing done with
  | nil => exact ⟨_, hpending⟩
  | cons c rest ih =>
    by_cases hquote : c = '"'
    · subst hquote
      exact ⟨_, List.mem_append_left _ hpending⟩
    · by_cases hblank : isBlank c = true
      · rw [scan_blank hblank]
        exact ⟨_, List.mem_append_left _ hpending⟩
      · rw [scan_letter hquote fun _ ↦ by simpa using hblank]
        refine ih (List.cons_ne_nil c done) ?_
        rw [pendingWord, if_neg (by simp)]
        exact List.mem_singleton_self _

private theorem exists_word_mem_scan (hclosed : openAfter inside s = false) (hquote : c ≠ '"')
    (hc : isBlank c = false) (t : List Char) : ∃ w, word w ∈ scan inside done (s ++ c :: t) := by
  induction s generalizing inside done with
  | nil =>
    obtain rfl : inside = false := hclosed
    rw [List.nil_append, scan_letter hquote fun _ ↦ hc]
    exact exists_word_mem_scan_of_ne_nil (List.cons_ne_nil c done) t
  | cons d rest ih =>
    rw [List.cons_append]
    by_cases hd : d = '"'
    · subst hd
      rw [scan_quote]
      exact (ih hclosed).imp fun w hw ↦ List.mem_append_right _ hw
    · rw [openAfter_cons hd] at hclosed
      by_cases hblank : inside = false ∧ isBlank d = true
      · obtain ⟨rfl, hd⟩ := hblank
        rw [scan_blank hd]
        exact (ih hclosed).imp fun w hw ↦ List.mem_append_right _ hw
      · rw [scan_letter hd (by simpa using hblank)]
        exact ih hclosed

private theorem scan_blanks (h : ∀ c ∈ s, isBlank c = true) : scan false [] s = [] := by
  induction s with
  | nil => rfl
  | cons c rest ih =>
    rw [scan_blank (h c List.mem_cons_self), ih fun d hd ↦ h d (List.mem_cons_of_mem c hd)]
    rfl

/-- Where quotes come in pairs, a query with a single literal and no word asks for the whole
name. -/
theorem asksWhole_of_tokenize (hclosed : Even (query.toList.count '"'))
    (h : tokenize query = [literal t]) : AsksWhole query t := by
  obtain ⟨front, back, hfront, hback, hquery⟩ := exists_trim_between query.toList
  have hopen : openAfter false query.toList = false := openAfter_eq_false_iff.mpr hclosed
  have hword : ∀ before c after, query.toList = before ++ c :: after →
      openAfter false before = false → c ≠ '"' → ¬isBlank c = false := by
    intro before c after hlist hbefore hquote hc
    have hscan : ∃ w, word w ∈ scan false [] (before ++ c :: after) :=
      exists_word_mem_scan hbefore hquote hc after
    rw [← hlist, ← tokenize, h] at hscan
    obtain ⟨w, hw⟩ := hscan
    cases List.mem_singleton.mp hw
  have hne : trim query.toList ≠ [] := by
    intro hnil
    rw [tokenize, hquery, hnil, scan_blanks] at h
    · cases h
    · simpa [or_imp, forall_and] using ⟨hfront, hback⟩
  obtain ⟨c, rest, hc, -, hhead⟩ := exists_trim hne
  obtain ⟨init, d, hd, hlast⟩ := exists_trim_eq_append hne
  have hcquote : c = '"' := by
    by_contra hquote
    refine hword front c (trimEnd rest ++ back) ?_ (openAfter_blanks hfront) hquote hc
    rw [← List.cons_append, ← hhead, ← List.append_assoc, ← hquery]
  have hdquote : d = '"' := by
    by_contra hquote
    have hlist : query.toList = (front ++ init) ++ d :: back := by
      rw [List.append_assoc, ← List.singleton_append, ← List.append_assoc init, ← hlast,
        ← List.append_assoc, ← hquery]
    refine hword (front ++ init) d back hlist ?_ hquote hd
    rw [hlist, openAfter_append, openAfter_cons hquote] at hopen
    rwa [openAfter_blanks hback] at hopen
  subst hcquote hdquote
  refine ⟨h, ?_, by rw [hhead]; rfl, by rw [hlast]; simp⟩
  -- a quote that is alone would be left open
  by_contra hshort
  obtain rfl : init = [] := by
    rw [hlast, List.length_append, List.length_singleton] at hshort
    exact List.length_eq_zero_iff.mp (by omega)
  rw [hquery, hlast, openAfter_append, openAfter_append, openAfter_blanks hfront,
    openAfter_blanks hback] at hopen
  cases hopen

/-! ## Matching -/

/-- A token occurs in a name: a literal as it is, a word whatever the case. -/
def Occurs (name : String) : NameToken → Prop
  | literal t => t <:+: name.toList
  | word t => lower t <:+: lower name.toList

private theorem accepts_containing (tokens : List NameToken) (name : String) :
    (NameMatcher.containing ((tokens.filter (·.isLiteral)).map (·.text))
      ((tokens.filter (!·.isLiteral)).map (lower ·.text))).accepts name = true ↔
      ∀ token ∈ tokens, token.Occurs name := by
  simp only [NameMatcher.accepts, Bool.and_eq_true, List.all_eq_true, List.forall_mem_map,
    List.mem_filter, occursIn_iff, and_imp]
  constructor
  · rintro ⟨hliterals, hwords⟩ token htoken
    cases token with
    | literal t => exact hliterals _ htoken rfl
    | word t => exact hwords _ htoken rfl
  · intro h
    refine ⟨fun token htoken hliteral ↦ ?_, fun token htoken hword ↦ ?_⟩
    · cases token with
      | literal t => exact h _ htoken
      | word t => cases hliteral
    · cases token with
      | literal t => cases hword
      | word t => exact h _ htoken

theorem AsksWhole.nameMatches_iff (h : AsksWhole query t) (name : String) :
    nameMatches query name = true ↔ name.toList = t := by
  obtain ⟨htokens, hquoted⟩ := asksWhole_iff.mp h
  rw [nameMatches, NameMatcher.ofQuery, htokens]
  simp [hquoted, NameMatcher.accepts]

theorem nameMatches_iff_occurs (h : ∀ t, ¬AsksWhole query t) (name : String) :
    nameMatches query name = true ↔ ∀ token ∈ tokenize query, token.Occurs name := by
  rw [nameMatches, NameMatcher.ofQuery, ← accepts_containing]
  rcases htokens : tokenize query with _ | ⟨token, rest⟩
  · simp [NameMatcher.accepts]
  · cases token with
    | word t => rfl
    | literal t =>
      rcases rest with _ | ⟨next, rest⟩
      · have hquoted : isFullyQuoted query = false := by
          rw [← Bool.not_eq_true]
          exact fun hquoted ↦ h t (asksWhole_iff.mpr ⟨htokens, hquoted⟩)
        simp [hquoted, isLiteral, text]
      · rfl

theorem nameMatches_iff (query name : String) :
    nameMatches query name = true ↔ tokenize query = [] ∨
      (∃ t, AsksWhole query t ∧ name.toList = t) ∨
      (¬∃ t, AsksWhole query t) ∧ ∀ token ∈ tokenize query, token.Occurs name := by
  by_cases hwhole : ∃ t, AsksWhole query t
  · obtain ⟨t, ht⟩ := hwhole
    rw [ht.nameMatches_iff]
    constructor
    · exact fun hname ↦ Or.inr (Or.inl ⟨t, ht, hname⟩)
    · rintro (hnone | ⟨t', ht', hname⟩ | ⟨hno, -⟩)
      · cases ht.tokens.symm.trans hnone
      · obtain rfl : t' = t := by simpa using ht'.tokens.symm.trans ht.tokens
        exact hname
      · exact absurd ⟨t, ht⟩ hno
  · rw [nameMatches_iff_occurs (not_exists.mp hwhole)]
    constructor
    · exact fun h ↦ Or.inr (Or.inr ⟨hwhole, h⟩)
    · rintro (hnone | ⟨t, ht, -⟩ | ⟨-, h⟩)
      · rw [hnone]
        exact nofun
      · exact absurd ⟨t, ht⟩ hwhole
      · exact h

/-- Two queries that do not ask for the whole name do not do so together, if no quote is open. -/
theorem not_asksWhole_append (hfirst : Even (first.toList.count '"'))
    (hsecond : Even (second.toList.count '"')) (hno : ¬∃ t, AsksWhole first t)
    (hno' : ¬∃ t, AsksWhole second t) : ¬∃ t, AsksWhole (first ++ " " ++ second) t := by
  rintro ⟨t, ht⟩
  have hsingle := ht.tokens
  rw [tokenize_append hfirst, List.append_eq_singleton_iff] at hsingle
  rcases hsingle with ⟨-, hliteral⟩ | ⟨hliteral, -⟩
  · exact hno' ⟨t, asksWhole_of_tokenize hsecond hliteral⟩
  · exact hno ⟨t, asksWhole_of_tokenize hfirst hliteral⟩

/-- **What a name query means.** Its tokens are those of its parts between double quotes. A name has
what the query asks for if there is no token, if the query asks for the whole name and this is it,
or if the query does not and all tokens occur in the name. So of two queries whose quotes come in
pairs, neither of which asks for the whole name, both are asked by writing one behind the other. -/
theorem meaning_of_query :
    (∀ query, tokenize query = ofParts 0 (query.toList.splitOn '"')) ∧
      (∀ query name, nameMatches query name = true ↔ tokenize query = [] ∨
        (∃ t, AsksWhole query t ∧ name.toList = t) ∨
        (¬∃ t, AsksWhole query t) ∧ ∀ token ∈ tokenize query, token.Occurs name) ∧
      ∀ first second : String, Even (first.toList.count '"') → Even (second.toList.count '"') →
        (¬∃ t, AsksWhole first t) → (¬∃ t, AsksWhole second t) → ∀ name,
          (nameMatches (first ++ " " ++ second) name = true ↔
            nameMatches first name = true ∧ nameMatches second name = true) := by
  refine ⟨tokenize_eq, nameMatches_iff, fun first second hfirst hsecond hno hno' name ↦ ?_⟩
  have hboth := not_asksWhole_append hfirst hsecond hno hno'
  rw [nameMatches_iff_occurs (not_exists.mp hboth), nameMatches_iff_occurs (not_exists.mp hno),
    nameMatches_iff_occurs (not_exists.mp hno'), tokenize_append hfirst, List.forall_mem_append]

/-- A word and a literal, and then a word behind an empty literal. -/
theorem meaning_of_query_menu :
    tokenize "Menu \"Item /\"" = [word "Menu".toList, literal "Item /".toList] ∧
      tokenize "\"\"BTN" = [word "BTN".toList] ∧
      nameMatches ("Menu \"Item /\"" ++ " " ++ "\"\"BTN") "Btn menu Item / 2" = true := by
  have hfirst : tokenize "Menu \"Item /\"" = [word "Menu".toList, literal "Item /".toList] := by
    decide
  have hsecond : tokenize "\"\"BTN" = [word "BTN".toList] := by decide
  refine ⟨hfirst, hsecond, (meaning_of_query.2.2 _ _ (by decide) (by decide) ?_ ?_ _).mpr ?_⟩
  · rintro ⟨t, ht⟩
    cases hfirst.symm.trans ht.tokens
  · rintro ⟨t, ht⟩
    cases hsecond.symm.trans ht.tokens
  · exact ⟨by decide, by decide⟩

end NameToken

end SceneSearch
