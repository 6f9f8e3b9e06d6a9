import SceneSearch.Proofs.Query.Tokens

/-!
# Words that miss names

A word is looked for in a name after both have been put in lower case, each on its own. All letters
but one are mapped by themselves. A capital sigma becomes a final sigma at the end of a word, and
whether it stands there is told by its neighbours: a letter is in front of it, characters that are
skipped apart, and none is behind it. So the same sigma may be final where a word is typed and not
final in a name that goes on behind the word, and then the word is not found in this name although
the name holds it as it is written. `found_wherever_written_iff` says which words miss no name in
this way: those that settle the form of all their capital sigmas.

For such a word a name is made with one letter more, in front or behind. There the lower case of the
word cannot occur, since it has more sigmas of one form than that of the whole name.
-/

namespace SceneSearch

variable {b before after front back s t u w : List Char} {x c : Char}

/-! ## Neighbours of a sigma -/

/-- The nearest character of a text that is not skipped. -/
def neighbour? (s : List Char) : Option Char := s.find? fun c ↦ !caseIgnorable.contains c

theorem nextIsCased_eq (s : List Char) :
    nextIsCased s = (neighbour? s).any casedLetters.contains := by
  rw [nextIsCased, neighbour?, List.find?_eq_head?_dropWhile_not]
  simp only [Bool.not_not]
  cases s.dropWhile fun c ↦ caseIgnorable.contains c <;> rfl

theorem neighbour?_append (s t : List Char) :
    neighbour? (s ++ t) = (neighbour? s).or (neighbour? t) := List.find?_append

theorem nextIsCased_append_of_isSome (h : (neighbour? s).isSome) (t : List Char) :
    nextIsCased (s ++ t) = nextIsCased s := by
  obtain ⟨c, hc⟩ := Option.isSome_iff_exists.mp h
  rw [nextIsCased_eq, nextIsCased_eq, neighbour?_append, hc, Option.some_or]

private theorem isSome_of_nextIsCased (h : nextIsCased s = true) : (neighbour? s).isSome := by
  rw [nextIsCased_eq] at h
  exact Option.isSome_of_any h

theorem nextIsCased_append_of_true (h : nextIsCased s = true) (t : List Char) :
    nextIsCased (s ++ t) = true :=
  (nextIsCased_append_of_isSome (isSome_of_nextIsCased h) t).trans h

private theorem nextIsCased_append_of_none (h : neighbour? s = none) (t : List Char) :
    nextIsCased (s ++ t) = nextIsCased t := by
  rw [nextIsCased_eq, nextIsCased_eq, neighbour?_append, h, Option.none_or]

/-! ## Lower case between neighbours -/

/-- Whether a capital sigma is final. -/
def isFinal (before after : List Char) : Bool := nextIsCased before && !nextIsCased after

/-- The lower case of a character between a text, reversed, and another one. -/
def lowerBetween (before : List Char) (c : Char) (after : List Char) : List Char :=
  if c = 'Σ' then [if isFinal before after then 'ς' else 'σ']
  else if c = 'İ' then ['i', Char.ofNat 0x307]
  else [lowerChar c]

theorem lowerAfter_cons (before : List Char) (c : Char) (s : List Char) :
    lowerAfter before (c :: s) = lowerBetween before c s ++ lowerAfter (c :: before) s := rfl

theorem lowerBetween_of_ne (h : c ≠ 'Σ') (before after s t : List Char) :
    lowerBetween before c after = lowerBetween s c t := by
  rw [lowerBetween, lowerBetween, if_neg h, if_neg h]

theorem lowerBetween_sigma (before after : List Char) :
    lowerBetween before 'Σ' after = [if isFinal before after then 'ς' else 'σ'] := if_pos rfl

theorem exists_lowerAfter_append (b s t : List Char) :
    ∃ init, lowerAfter b (s ++ t) = init ++ lowerAfter (s.reverse ++ b) t := by
  induction s generalizing b with
  | nil => exact ⟨[], rfl⟩
  | cons c rest ih =>
    obtain ⟨init, hinit⟩ := ih (c :: b)
    refine ⟨lowerBetween b c (rest ++ t) ++ init, ?_⟩
    rw [List.cons_append, lowerAfter_cons, hinit, List.reverse_cons, List.append_assoc,
      List.append_assoc, List.singleton_append]

/-! ## Open sigmas -/

/-- A word leaves the form of a capital sigma open that stands between these parts of it: a letter
behind the word would make a final one another one, or a letter in front of the word would make
another one final. -/
def LeavesOpen (front back : List Char) : Prop :=
  nextIsCased front.reverse = true ∧ neighbour? back = none ∨
    neighbour? front.reverse = none ∧ nextIsCased back = false

/-- A sigma that the word does not leave open has the same form in every name. -/
theorem isFinal_append (h : ¬LeavesOpen front back) (before after : List Char) :
    isFinal (front.reverse ++ before) (back ++ after) = isFinal front.reverse back := by
  obtain ⟨hfront, hback⟩ := not_or.mp h
  rw [isFinal, isFinal]
  rcases hneighbour : neighbour? front.reverse with _ | c
  · have hcased : nextIsCased back = true := by simpa [hneighbour] using hback
    rw [nextIsCased_append_of_true hcased, hcased, Bool.not_true, Bool.and_false, Bool.and_false]
  · rw [nextIsCased_append_of_isSome (by simp [hneighbour])]
    rcases hcased : nextIsCased front.reverse with _ | _
    · rfl
    · have hsome : (neighbour? back).isSome := by
        rw [Option.isSome_iff_ne_none]
        exact fun hnone ↦ hfront ⟨hcased, hnone⟩
      rw [nextIsCased_append_of_isSome hsome]

/-- A part of a word with no open sigma has the same lower case in every name. -/
theorem lowerAfter_append (u before after : List Char)
    (h : ∀ front back, s = front ++ 'Σ' :: back → ¬LeavesOpen (u ++ front) back) :
    lowerAfter (u.reverse ++ before) (s ++ after) =
      lowerAfter u.reverse s ++ lowerAfter ((u ++ s).reverse ++ before) after := by
  induction s generalizing u with
  | nil =>
    rw [List.nil_append, List.append_nil]
    rfl
  | cons c rest ih =>
    have hc : lowerBetween (u.reverse ++ before) c (rest ++ after) =
        lowerBetween u.reverse c rest := by
      by_cases hsigma : c = 'Σ'
      · subst hsigma
        have hopen := h [] rest rfl
        rw [List.append_nil] at hopen
        rw [lowerBetween_sigma, lowerBetween_sigma, isFinal_append hopen]
      · exact lowerBetween_of_ne hsigma ..
    have hrest := ih (u ++ [c]) fun front back heq ↦ by
      rw [List.append_assoc, List.singleton_append]
      exact h (c :: front) back (by rw [heq, List.cons_append])
    rw [List.reverse_append, List.reverse_singleton, List.singleton_append, List.cons_append,
      List.append_assoc u, List.singleton_append] at hrest
    rw [List.cons_append, lowerAfter_cons, lowerAfter_cons, hc, hrest, List.append_assoc]

/-- **Where no sigma is open** a word is found in every text that holds it. -/
theorem lower_occurs_of_occurs (h : ∀ front back, w = front ++ 'Σ' :: back → ¬LeavesOpen front back)
    (hoccurs : w <:+: s) : lower w <:+: lower s := by
  obtain ⟨before, after, rfl⟩ := hoccurs
  rw [List.append_assoc]
  obtain ⟨init, hinit⟩ := exists_lowerAfter_append [] before (w ++ after)
  have hword := lowerAfter_append [] before.reverse after h
  rw [List.append_nil] at hinit
  rw [lower, lower, hinit]
  refine ⟨init, lowerAfter (w.reverse ++ before.reverse) after, ?_⟩
  rw [List.append_assoc]
  exact congrArg (init ++ ·) hword.symm

/-! ## Names that a word misses -/

/-- Between these texts, the first one reversed, a text has at most as many characters `x` in lower
case as alone. -/
structure Lessens (x : Char) (before after : List Char) : Prop where
  /-- No sigma becomes `x`. -/
  sigma : ∀ b s, (lowerBetween (b ++ before) 'Σ' (s ++ after)).count x ≤
    (lowerBetween b 'Σ' s).count x
  /-- The text behind has no `x`. -/
  behind : ∀ b, (lowerAfter b after).count x = 0

namespace Lessens

theorem character (h : Lessens x before after) (b : List Char) (c : Char) (s : List Char) :
    (lowerBetween (b ++ before) c (s ++ after)).count x ≤ (lowerBetween b c s).count x := by
  by_cases hsigma : c = 'Σ'
  · subst hsigma
    exact h.sigma b s
  · exact Nat.le_of_eq (congrArg _ (lowerBetween_of_ne hsigma ..))

private theorem text (h : Lessens x before after) (b s : List Char) :
    (lowerAfter (b ++ before) (s ++ after)).count x ≤ (lowerAfter b s).count x := by
  induction s generalizing b with
  | nil => exact Nat.le_of_eq (h.behind _)
  | cons c rest ih =>
    rw [List.cons_append, lowerAfter_cons, lowerAfter_cons, List.count_append, List.count_append]
    exact Nat.add_le_add (h.character b c rest) (ih (c :: b))

/-- If a sigma is `x` alone and not between these texts, there is one `x` less. -/
theorem text_sigma (h : Lessens x before after) (b : List Char)
    (hlt : (lowerBetween (front.reverse ++ b ++ before) 'Σ' (back ++ after)).count x <
      (lowerBetween (front.reverse ++ b) 'Σ' back).count x) :
    (lowerAfter (b ++ before) (front ++ 'Σ' :: back ++ after)).count x <
      (lowerAfter b (front ++ 'Σ' :: back)).count x := by
  induction front generalizing b with
  | nil =>
    rw [List.nil_append, List.cons_append, lowerAfter_cons, lowerAfter_cons, List.count_append,
      List.count_append]
    exact Nat.add_lt_add_of_lt_of_le hlt (h.text ('Σ' :: b) back)
  | cons c rest ih =>
    rw [List.reverse_cons, List.append_assoc rest.reverse, List.singleton_append] at hlt
    rw [List.cons_append, List.cons_append, lowerAfter_cons, lowerAfter_cons, List.count_append,
      List.count_append]
    exact Nat.add_lt_add_of_le_of_lt (h.character b c _) (ih (c :: b) hlt)

end Lessens

theorem lower_letter_cons (s : List Char) : lower ('a' :: s) = 'a' :: lowerAfter ['a'] s := rfl

private theorem nextIsCased_letter (s : List Char) : nextIsCased ('a' :: s) = true := rfl

private theorem lessens_final : Lessens 'ς' [] ['a'] where
  sigma b s := by
    have hfinal : isFinal b (s ++ ['a']) = true → isFinal b s = true := by
      simp only [isFinal, Bool.and_eq_true, Bool.not_eq_true', and_imp]
      refine fun hb hs ↦ ⟨hb, ?_⟩
      by_contra hcased
      rw [nextIsCased_append_of_true (by simpa using hcased)] at hs
      cases hs
    rw [List.append_nil, lowerBetween_sigma, lowerBetween_sigma]
    cases hb : isFinal b (s ++ ['a'])
    · simp
    · rw [hfinal hb]
  behind b := rfl

private theorem lessens_inner : Lessens 'σ' ['a'] [] where
  sigma b s := by
    have hfinal : isFinal b s = true → isFinal (b ++ ['a']) s = true := by
      simp only [isFinal, Bool.and_eq_true]
      exact And.imp_left fun hb ↦ nextIsCased_append_of_true hb ['a']
    rw [List.append_nil, lowerBetween_sigma, lowerBetween_sigma]
    cases hb : isFinal b s
    · exact List.count_le_length
    · rw [hfinal hb]
  behind b := rfl

/-- A word with an open sigma is not found where it has a letter more. -/
theorem exists_missed (h : LeavesOpen front back) :
    ∃ s, front ++ 'Σ' :: back <:+: s ∧ ¬lower (front ++ 'Σ' :: back) <:+: lower s := by
  rcases h with ⟨hcased, hnone⟩ | ⟨hnone, hcased⟩
  -- the sigma is final alone and not in front of a letter
  · refine ⟨front ++ 'Σ' :: back ++ ['a'], ⟨[], ['a'], rfl⟩, fun hoccurs ↦ ?_⟩
    have halone : isFinal front.reverse back = true := by
      rw [isFinal, hcased, nextIsCased_eq back, hnone]
      rfl
    have hbefore : isFinal front.reverse (back ++ ['a']) = false := by
      rw [isFinal, nextIsCased_append_of_none hnone, nextIsCased_letter, Bool.not_true,
        Bool.and_false]
    have hlt : (lower (front ++ 'Σ' :: back ++ ['a'])).count 'ς' <
        (lower (front ++ 'Σ' :: back)).count 'ς' := by
      refine lessens_final.text_sigma [] ?_
      rw [List.append_nil, List.append_nil, lowerBetween_sigma, lowerBetween_sigma, halone, hbefore]
      decide
    exact absurd (hoccurs.sublist.count_le 'ς') (Nat.not_le.mpr hlt)
  -- the sigma is final behind a letter only
  · refine ⟨'a' :: (front ++ 'Σ' :: back), ⟨['a'], [], by simp⟩, fun hoccurs ↦ ?_⟩
    have halone : isFinal front.reverse back = false := by
      rw [isFinal, nextIsCased_eq, hnone]
      rfl
    have hbehind : isFinal (front.reverse ++ ['a']) back = true := by
      rw [isFinal, nextIsCased_append_of_none hnone, nextIsCased_letter, hcased]
      rfl
    have hlt : (lowerAfter ['a'] (front ++ 'Σ' :: back ++ [])).count 'σ' <
        (lower (front ++ 'Σ' :: back)).count 'σ' := by
      refine lessens_inner.text_sigma [] ?_
      rw [List.append_nil, List.append_nil, lowerBetween_sigma, lowerBetween_sigma, halone, hbehind]
      decide
    have hle := hoccurs.sublist.count_le 'σ'
    rw [lower_letter_cons, List.count_cons_of_ne (by decide)] at hle
    rw [List.append_nil] at hlt
    exact absurd hle (Nat.not_le.mpr hlt)

/-! ## Words as queries -/

theorem NameToken.tokenize_of_plain {query : String} (hne : query ≠ "")
    (hplain : ∀ c ∈ query.toList, isBlank c = false ∧ c ≠ '"') :
    tokenize query = [word query.toList] := by
  have hsplit : query.toList.splitOn '"' = [query.toList] :=
    List.splitOnP_eq_singleton fun c hc ↦ by simpa using (hplain c hc).2
  have hempty : ¬query.toList.isEmpty = true := by simpa using hne
  rw [tokenize_eq, hsplit, ofParts_cons, ofPart, if_pos Even.zero,
    wordsIn_of_plain fun c hc ↦ (hplain c hc).1, if_neg hempty]
  rfl

private theorem nameMatches_iff_lower_occurs {query : String} (hne : query ≠ "")
    (hplain : ∀ c ∈ query.toList, isBlank c = false ∧ c ≠ '"') (name : String) :
    nameMatches query name = true ↔ lower query.toList <:+: lower name.toList := by
  have htokens := NameToken.tokenize_of_plain hne hplain
  have hno : ∀ t, ¬NameToken.AsksWhole query t := fun t ht ↦ by
    cases htokens.symm.trans ht.tokens
  rw [NameToken.nameMatches_iff_occurs hno, htokens, List.forall_mem_singleton]
  rfl

/-- **Words that are found wherever they are written.** A word finds every name that holds it as it
is written if and only if it leaves the form of no capital sigma open. -/
theorem found_wherever_written_iff {query : String} (hne : query ≠ "")
    (hplain : ∀ c ∈ query.toList, isBlank c = false ∧ c ≠ '"') :
    (∀ name : String, query.toList <:+: name.toList → nameMatches query name = true) ↔
      ∀ front back, query.toList = front ++ 'Σ' :: back → ¬LeavesOpen front back := by
  simp only [nameMatches_iff_lower_occurs hne hplain]
  constructor
  · intro hfound front back hquery hopen
    obtain ⟨s, hoccurs, hmissed⟩ := exists_missed hopen
    rw [← hquery] at hoccurs hmissed
    have hname := hfound (String.ofList s)
    rw [String.toList_ofList] at hname
    exact hmissed (hname hoccurs)
  · exact fun hsettled name hoccurs ↦ lower_occurs_of_occurs hsettled hoccurs

/-- A sigma at the start of a word, with a letter behind it, is settled. -/
theorem found_wherever_written_iff_sign :
    ("ΣΗΜΑ" ≠ "" ∧ ∀ c ∈ "ΣΗΜΑ".toList, isBlank c = false ∧ c ≠ '"') ∧
      ∀ name : String, "ΣΗΜΑ".toList <:+: name.toList → nameMatches "ΣΗΜΑ" name = true := by
  have hplain : ∀ c ∈ "ΣΗΜΑ".toList, isBlank c = false ∧ c ≠ '"' := by simp [isBlank]
  refine ⟨⟨by decide, hplain⟩, (found_wherever_written_iff (by decide) hplain).mpr ?_⟩
  rintro front back hword (⟨hcased, -⟩ | ⟨hnone, hcased⟩)
  all_goals
    rcases front with _ | ⟨a, _ | ⟨b, _ | ⟨c, _ | ⟨d, front⟩⟩⟩⟩ <;> simp at hword
  · exact absurd hcased (by decide)
  · subst hword
    exact absurd hcased (by decide +kernel)

/-- A word that ends with a sigma is not found in a longer word that starts with it. -/
theorem not_found_in_longer_word :
    ("ΟΔΟΣ" ≠ "" ∧ (∀ c ∈ "ΟΔΟΣ".toList, isBlank c = false ∧ c ≠ '"') ∧
      "ΟΔΟΣ".toList <:+: "ΟΔΟΣΤΡΩΜΑ".toList) ∧ nameMatches "ΟΔΟΣ" "ΟΔΟΣΤΡΩΜΑ" = false := by
  refine ⟨⟨by decide, by simp [isBlank], ?_⟩, by decide +kernel⟩
  exact ⟨[], "ΤΡΩΜΑ".toList, by decide +kernel⟩

end SceneSearch
