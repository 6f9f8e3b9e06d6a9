import Mathlib.Algebra.Group.Nat.Even
import SceneSearch.Proofs.Query.Pattern

/-!
# Taking modifiers out along a text

Modifiers are taken out of every other chunk between the double quotes of a text, word by word. For
statements on texts that are put together from others, chunks are a nuisance: a quote that is added
in front changes which chunks are looked at. `takeAlong` does the same character by character, with
whether a quote is open as its only memory besides the current word, and what it takes out of two
texts is what it takes out of each of them, provided the first one leaves no quote open and no word
runs across.
-/

namespace SceneSearch

/-! ## Open quotes -/

/-- Whether a quote is open after a text, if one is open before it or not. -/
def openAfter (inside : Bool) (s : List Char) : Bool :=
  s.foldl (fun inside c ↦ if c = '"' then !inside else inside) inside

@[simp] theorem openAfter_nil (inside : Bool) : openAfter inside [] = inside := rfl

@[simp] theorem openAfter_quote (inside : Bool) (s : List Char) :
    openAfter inside ('"' :: s) = openAfter (!inside) s := rfl

theorem openAfter_cons {c : Char} (h : c ≠ '"') (inside : Bool) (s : List Char) :
    openAfter inside (c :: s) = openAfter inside s := by
  rw [openAfter, List.foldl_cons, if_neg h, openAfter]

theorem openAfter_append (inside : Bool) (s t : List Char) :
    openAfter inside (s ++ t) = openAfter (openAfter inside s) t := List.foldl_append

theorem openAfter_of_not_mem {s : List Char} (h : '"' ∉ s) (inside : Bool) :
    openAfter inside s = inside := by
  induction s with
  | nil => rfl
  | cons c rest ih =>
    obtain ⟨hc, hrest⟩ := not_or.mp (List.mem_cons.not.mp h)
    rw [openAfter_cons (Ne.symm hc), ih hrest]

theorem quote_not_mem_blanks {blanks : List Char} (h : ∀ c ∈ blanks, isBlank c = true) :
    '"' ∉ blanks := fun hmem ↦ absurd (h '"' hmem) (by decide)

theorem openAfter_blanks {blanks : List Char} {inside : Bool}
    (h : ∀ c ∈ blanks, isBlank c = true) : openAfter inside blanks = inside :=
  openAfter_of_not_mem (quote_not_mem_blanks h) inside

theorem openAfter_eq_false_iff {s : List Char} :
    openAfter false s = false ↔ Even (s.count '"') := by
  have hparity : ∀ inside, openAfter inside s = (inside ^^ decide (s.count '"' % 2 = 1)) := by
    induction s with
    | nil => simp
    | cons c rest ih =>
      intro inside
      by_cases hc : c = '"'
      · subst hc
        rw [openAfter_quote, ih, List.count_cons_self]
        rcases Nat.mod_two_eq_zero_or_one (rest.count '"') with h | h <;>
          simp [h, Nat.add_mod]
      · rw [openAfter_cons hc, ih, List.count_cons_of_ne hc]
  rw [hparity, Nat.even_iff, Bool.false_xor, decide_eq_false_iff_not]
  exact Nat.mod_two_ne_one

/-! ## Blanks at the ends -/

section

variable {s t blanks : List Char}

theorem trimStart_blanks_append (h : ∀ c ∈ blanks, isBlank c = true) :
    trimStart (blanks ++ s) = trimStart s := List.dropWhile_append_of_pos h

private theorem trimEnd_append_blanks (h : ∀ c ∈ blanks, isBlank c = true) :
    trimEnd (s ++ blanks) = trimEnd s := by
  rw [trimEnd, List.reverse_append, List.dropWhile_append_of_pos, trimEnd]
  simpa using h

private theorem trimStart_of_blanks (h : ∀ c ∈ blanks, isBlank c = true) : trimStart blanks = [] :=
  List.dropWhile_eq_nil_iff.mpr h

theorem trim_blanks_append (h : ∀ c ∈ blanks, isBlank c = true) :
    trim (blanks ++ s) = trim s := by
  rw [trim, trimStart_blanks_append h, trim]

theorem trim_append_blanks (h : ∀ c ∈ blanks, isBlank c = true) :
    trim (s ++ blanks) = trim s := by
  have hstart : trimStart (s ++ blanks) =
      if (trimStart s).isEmpty then [] else trimStart s ++ blanks := by
    rw [trimStart, List.dropWhile_append, ← trimStart, ← trimStart, trimStart_of_blanks h]
  rw [trim, trim, hstart]
  split
  · rename_i hempty
    rw [List.isEmpty_iff.mp hempty]
  · exact trimEnd_append_blanks h

/-- What stands before a character that is no blank is not cut at its end. -/
theorem trimEnd_append_cons {c : Char} (hc : isBlank c = false) :
    trimEnd (s ++ c :: t) = s ++ c :: trimEnd t := by
  rw [trimEnd, List.reverse_append, List.reverse_cons, List.append_assoc, List.dropWhile_append]
  split
  · rename_i hempty
    simp [trimEnd, List.isEmpty_iff.mp hempty, hc]
  · simp [trimEnd]

theorem trimStart_append_cons {c : Char} (hc : isBlank c = false) :
    trimStart (s ++ c :: t) = trimStart s ++ c :: t := by
  rw [trimStart, List.dropWhile_append]
  split
  · rename_i hempty
    simp [trimStart, List.isEmpty_iff.mp hempty, hc]
  · rfl

/-- What starts with a character that is no blank is cut at its end only. -/
theorem trim_cons {c : Char} (hc : isBlank c = false) (t : List Char) :
    trim (c :: t) = c :: trimEnd t := by
  rw [trim, trimStart_of_not_blank t hc]
  exact @trimEnd_append_cons [] t c hc

theorem exists_trimStart (s : List Char) :
    ∃ blanks, (∀ c ∈ blanks, isBlank c = true) ∧ s = blanks ++ trimStart s :=
  ⟨s.takeWhile isBlank, fun _ h ↦ List.mem_takeWhile_imp h, List.takeWhile_append_dropWhile.symm⟩

theorem exists_trimEnd (s : List Char) :
    ∃ blanks, (∀ c ∈ blanks, isBlank c = true) ∧ s = trimEnd s ++ blanks := by
  obtain ⟨blanks, hblanks, hs⟩ := exists_trimStart s.reverse
  refine ⟨blanks.reverse, by simpa using hblanks, ?_⟩
  rw [trimEnd, ← List.reverse_append, ← trimStart, ← hs, List.reverse_reverse]

theorem exists_trim_between (s : List Char) :
    ∃ front back, (∀ c ∈ front, isBlank c = true) ∧ (∀ c ∈ back, isBlank c = true) ∧
      s = front ++ trim s ++ back := by
  obtain ⟨front, hfront, hs⟩ := exists_trimStart s
  obtain ⟨back, hback, hstart⟩ := exists_trimEnd (trimStart s)
  refine ⟨front, back, hfront, hback, ?_⟩
  rw [List.append_assoc, trim, ← hstart, ← hs]

theorem openAfter_trim (inside : Bool) (s : List Char) :
    openAfter inside (trim s) = openAfter inside s := by
  obtain ⟨front, back, hfront, hback, hs⟩ := exists_trim_between s
  conv_rhs => rw [hs, openAfter_append, openAfter_append, openAfter_blanks hfront,
    openAfter_blanks hback]

/-- What is left of a text that is not blank starts with a character that is no blank. -/
theorem exists_trim (h : trim s ≠ []) :
    ∃ c t, isBlank c = false ∧ trimStart s = c :: t ∧ trim s = c :: trimEnd t := by
  have hhead := List.head?_dropWhile_not isBlank s
  rcases hstart : trimStart s with _ | ⟨c, t⟩
  · rw [trim, hstart] at h
    exact absurd rfl h
  · have hdrop : s.dropWhile isBlank = c :: t := hstart
    rw [hdrop] at hhead
    refine ⟨c, t, hhead, rfl, ?_⟩
    rw [trim, hstart]
    exact trimEnd_append_cons (s := []) hhead

/-- What is left of a text that is not blank ends with a character that is no blank. -/
theorem exists_trim_eq_append (h : trim s ≠ []) :
    ∃ init c, isBlank c = false ∧ trim s = init ++ [c] := by
  have hhead := List.head?_dropWhile_not isBlank (trimStart s).reverse
  rcases hdrop : (trimStart s).reverse.dropWhile isBlank with _ | ⟨c, t⟩
  · rw [trim, trimEnd, hdrop] at h
    exact absurd rfl h
  · rw [hdrop] at hhead
    refine ⟨t.reverse, c, hhead, ?_⟩
    rw [trim, trimEnd, hdrop, List.reverse_cons]

end

namespace Modifier

/-! ## Extractions one after the other -/

/-- What two extractions make one after the other; of two refusals the first one counts. -/
def join (x y : Except TooManyDigits Extraction) : Except TooManyDigits Extraction :=
  x.bind fun a ↦ y.map fun b ↦ ⟨a.text ++ b.text, a.modifiers ++ b.modifiers⟩

/-- A text that has no modifier. -/
def keep (text : List Char) : Except TooManyDigits Extraction := .ok ⟨text, []⟩

variable {x y z : Except TooManyDigits Extraction} {word : List Char}

theorem join_assoc : join (join x y) z = join x (join y z) := by
  cases x <;> cases y <;> cases z <;> simp [join, Except.bind, Except.map]

@[simp] theorem keep_nil_join : join (keep []) x = x := by
  cases x <;> rfl

@[simp] theorem join_keep_nil : join x (keep []) = x := by
  cases x <;> simp [join, keep, Except.bind, Except.map]

private theorem join_keep_eq_map (s : List Char) :
    join x (keep s) = x.map fun r ↦ { r with text := r.text ++ s } := by
  cases x <;> simp [join, keep, Except.bind, Except.map]

theorem exists_of_join {e : Extraction} (h : join x y = .ok e) :
    ∃ a b, x = .ok a ∧ y = .ok b ∧ e = ⟨a.text ++ b.text, a.modifiers ++ b.modifiers⟩ := by
  rcases x with cause | a
  · cases h
  · rcases y with cause | b
    · cases h
    · exact ⟨a, b, rfl, rfl, (Except.ok.inj h).symm⟩

/-- What one word becomes, its characters reversed. -/
def ending (word : List Char) : Except TooManyDigits Extraction :=
  match wording? word.reverse with
  | none => keep word.reverse
  | some wording => (ofWording wording).map fun modifier ↦ ⟨[], [modifier]⟩

@[simp] theorem ending_nil : ending [] = keep [] := rfl

theorem takePart_eq_join (part : Pattern.Part) :
    takePart part x = join (takePart part (keep [])) x := by
  cases part with
  | kept c => cases x <;> rfl
  | matched text =>
    rw [takePart, takePart]
    cases ofBody (text.drop 2) <;> cases x <;> rfl

theorem foldr_takePart_append (parts more : List Pattern.Part) :
    (parts ++ more).foldr takePart (keep []) =
      join (parts.foldr takePart (keep [])) (more.foldr takePart (keep [])) := by
  induction parts with
  | nil => rw [List.nil_append, List.foldr_nil, keep_nil_join]
  | cons part parts ih =>
    rw [List.cons_append, List.foldr_cons, List.foldr_cons, ih, takePart_eq_join, ← join_assoc,
      ← takePart_eq_join]

private theorem foldr_takePart_kept (s : List Char) :
    (s.map Pattern.Part.kept).foldr takePart (keep []) = keep s := by
  induction s with
  | nil => rfl
  | cons c s ih =>
    rw [List.map_cons, List.foldr_cons, ih]
    rfl

theorem foldr_takePart_word (word : List Char) :
    (if (wording? word.reverse).isSome then [.matched word.reverse]
      else word.reverse.map Pattern.Part.kept).foldr takePart (keep []) = ending word := by
  rw [ending]
  cases hwording : wording? word.reverse with
  | none => exact foldr_takePart_kept word.reverse
  | some wording =>
    obtain ⟨body, hword, hspelling⟩ := wording?_eq_some_iff.mp hwording
    rw [Option.isSome_some, if_pos rfl, List.foldr_cons, hword, takePart, List.drop_succ_cons,
      List.drop_succ_cons, List.drop_zero, hspelling.ofBody_eq]
    dsimp only
    cases ofWording wording <;> rfl

/-! ## Character by character -/

/-- Takes the modifiers out of a text; `inside` tells whether a quote is open, and `word` is what
was read of the current word outside quotes, reversed. -/
def takeAlong (inside : Bool) (word : List Char) : List Char → Except TooManyDigits Extraction
  | [] => if inside then keep [] else ending word
  | c :: rest =>
    if inside then join (keep [c]) (takeAlong (c ≠ '"') [] rest)
    else if c = '"' then join (ending word) (join (keep [c]) (takeAlong true [] rest))
    else if isBlank c then join (ending word) (join (keep [c]) (takeAlong false [] rest))
    else takeAlong false (c :: word) rest

theorem ne_quote_of_isBlank {c : Char} (h : isBlank c = true) : c ≠ '"' := by
  rintro rfl
  exact absurd h (by decide)

theorem takeAlong_false_quote (s : List Char) :
    takeAlong false word ('"' :: s) =
      join (ending word) (join (keep ['"']) (takeAlong true [] s)) := rfl

theorem takeAlong_true_quote (s : List Char) :
    takeAlong true word ('"' :: s) = join (keep ['"']) (takeAlong false [] s) := rfl

theorem takeAlong_true_cons {c : Char} (h : c ≠ '"') (s : List Char) :
    takeAlong true word (c :: s) = join (keep [c]) (takeAlong true [] s) := by
  rw [takeAlong, if_pos rfl, decide_eq_true h]

theorem takeAlong_blank {c : Char} (h : isBlank c = true) (s : List Char) :
    takeAlong false word (c :: s) =
      join (ending word) (join (keep [c]) (takeAlong false [] s)) := by
  rw [takeAlong, if_neg Bool.false_ne_true, if_neg (ne_quote_of_isBlank h), if_pos h]

theorem takeAlong_letter {c : Char} (hquote : c ≠ '"') (h : ¬isBlank c = true) (s : List Char) :
    takeAlong false word (c :: s) = takeAlong false (c :: word) s := by
  rw [takeAlong, if_neg Bool.false_ne_true, if_neg hquote, if_neg h]

/-! ## Chunk by chunk and character by character -/

theorem chunks_quote (s : List Char) : chunks ('"' :: s) = [] :: chunks s := by
  rw [chunks, List.splitOn_cons_eq_if_modifyHead, if_pos (by simp), chunks]

theorem chunks_cons {c : Char} (h : c ≠ '"') (s : List Char) :
    chunks (c :: s) = (chunks s).modifyHead (c :: ·) := by
  rw [chunks, List.splitOn_cons_eq_if_modifyHead, if_neg (by simpa using h), chunks]

section

variable (hword : ∀ c ∈ word, isBlank c = false)
include hword

private theorem takeFromChunk_reverse : takeFromChunk word.reverse = ending word := by
  change (pattern.partsFrom [] 0 word.reverse).foldr takePart (keep []) = _
  rw [← List.append_nil word.reverse, partsFrom_word .nil (by simpa using hword) .nil,
    foldr_takePart_append, foldr_takePart_word]
  exact join_keep_nil

private theorem takeFromChunk_append_blank {c : Char} (h : isBlank c = true) (rest : List Char) :
    takeFromChunk (word.reverse ++ c :: rest) =
      join (ending word) (join (keep [c]) (takeFromChunk rest)) := by
  change (pattern.partsFrom [] 0 (word.reverse ++ c :: rest)).foldr takePart (keep []) = _
  rw [partsFrom_word .nil (by simpa using hword) (startsBlank_cons.mpr h), foldr_takePart_append,
    foldr_takePart_word, partsFrom_blank h, List.foldr_cons, takePart_eq_join]
  have hfresh : pattern.partsFrom (c :: (word.reverse.reverse ++ [])) 0 rest =
      pattern.parts rest := partsFrom_congr (by simp [h]) rest
  rw [hfresh]
  rfl

end

/-- What is taken out of the chunks that follow one. -/
def takeBehind (outside : Bool) : List (List Char) → Except TooManyDigits Extraction
  | [] => keep []
  | rest => join (keep ['"']) (takeFromChunks (!outside) rest)

theorem takeFromChunks_cons (outside : Bool) (chunk : List Char) (rest : List (List Char)) :
    takeFromChunks outside (chunk :: rest) =
      join (if outside then takeFromChunk chunk else keep chunk) (takeBehind outside rest) := by
  cases rest with
  | nil =>
    rw [takeFromChunks, takeBehind, join_keep_nil]
    rfl
  | cons next rest =>
    have hcons : takeFromChunks outside (chunk :: next :: rest) =
        (if outside then takeFromChunk chunk else keep chunk).bind fun first ↦
          (takeFromChunks (!outside) (next :: rest)).bind fun r ↦
            .ok ⟨first.text ++ '"' :: r.text, first.modifiers ++ r.modifiers⟩ := by
      cases outside <;> rfl
    rw [hcons, takeBehind]
    · cases (if outside then takeFromChunk chunk else keep chunk) <;>
        cases takeFromChunks (!outside) (next :: rest) <;> rfl
    · exact List.cons_ne_nil _ _

private theorem takeFromChunks_chunks (s : List Char) :
    (∀ word : List Char, (∀ c ∈ word, isBlank c = false) →
      takeFromChunks true ((chunks s).modifyHead (word.reverse ++ ·)) = takeAlong false word s) ∧
    takeFromChunks false (chunks s) = takeAlong true [] s := by
  induction s with
  | nil =>
    constructor
    · intro word hword
      change takeFromChunk (word.reverse ++ []) = _
      rw [List.append_nil, takeFromChunk_reverse hword]
      rfl
    · rfl
  | cons c rest ih =>
    obtain ⟨hout, hin⟩ := ih
    obtain ⟨first, more, hchunks⟩ := List.exists_cons_of_ne_nil (List.splitOn_ne_nil '"' rest)
    have hrest : chunks rest = first :: more := hchunks
    rw [hrest] at hout hin
    have hout' := hout [] (by simp)
    simp only [List.modifyHead_cons, List.reverse_nil, List.nil_append] at hout'
    by_cases hquote : c = '"'
    · subst hquote
      rw [chunks_quote, hrest]
      constructor
      · intro word hword
        rw [List.modifyHead_cons, takeFromChunks_cons, if_pos rfl, List.append_nil,
          takeFromChunk_reverse hword, takeBehind, Bool.not_true, hin, takeAlong_false_quote]
        exact List.cons_ne_nil _ _
      · rw [takeFromChunks_cons, takeBehind, Bool.not_false, hout', takeAlong_true_quote]
        · exact keep_nil_join
        · exact List.cons_ne_nil _ _
    · rw [chunks_cons hquote, hrest, List.modifyHead_cons]
      constructor
      · intro word hword
        by_cases hblank : isBlank c = true
        · rw [List.modifyHead_cons, takeAlong_blank hblank, ← hout', takeFromChunks_cons,
            takeFromChunks_cons, if_pos rfl, if_pos rfl, takeFromChunk_append_blank hword hblank,
            join_assoc, join_assoc]
        · have hmore : ∀ d ∈ c :: word, isBlank d = false := by
            simpa using ⟨by simpa using hblank, hword⟩
          rw [takeAlong_letter hquote hblank, ← hout (c :: word) hmore]
          simp
      · rw [takeAlong_true_cons hquote, ← hin, takeFromChunks_cons, takeFromChunks_cons,
          ← join_assoc]
        rfl

theorem extract_eq (text : List Char) :
    extract text = (takeAlong false [] text).map fun r ↦ { r with text := trim r.text } := by
  rw [extract, ← (takeFromChunks_chunks text).1 [] (by simp)]
  obtain ⟨first, more, hchunks⟩ := List.exists_cons_of_ne_nil (List.splitOn_ne_nil '"' text)
  have htext : chunks text = first :: more := hchunks
  rw [htext]
  rfl

/-! ## Texts put together -/

theorem takeAlong_blanks {blanks : List Char} (h : ∀ c ∈ blanks, isBlank c = true)
    (s : List Char) :
    takeAlong false [] (blanks ++ s) = join (keep blanks) (takeAlong false [] s) := by
  induction blanks with
  | nil => rw [List.nil_append, keep_nil_join]
  | cons c rest ih =>
    rw [List.cons_append, takeAlong_blank (h c List.mem_cons_self),
      ih fun d hd ↦ h d (List.mem_cons_of_mem c hd), ending_nil, keep_nil_join, ← join_assoc]
    rfl

private theorem takeAlong_of_startsBlank {t : List Char} (h : StartsBlank t) :
    takeAlong false word t = join (ending word) (takeAlong false [] t) := by
  cases t with
  | nil => simp [takeAlong]
  | cons c rest =>
    rw [takeAlong_blank (h c rfl), takeAlong_blank (h c rfl), ending_nil, keep_nil_join]

/-- **Two texts**: if the first one leaves no quote open and no word runs across, what is taken out
of both is what is taken out of one and of the other. -/
theorem takeAlong_append {inside : Bool} {s t : List Char} (hclosed : openAfter inside s = false)
    (ht : StartsBlank t) :
    takeAlong inside word (s ++ t) = join (takeAlong inside word s) (takeAlong false [] t) := by
  induction s generalizing inside word with
  | nil =>
    obtain rfl : inside = false := hclosed
    rw [List.nil_append, takeAlong_of_startsBlank ht]
    rfl
  | cons c rest ih =>
    rw [List.cons_append]
    by_cases hquote : c = '"'
    · subst hquote
      rw [openAfter_quote] at hclosed
      cases inside with
      | true =>
        have hrest : openAfter false rest = false := hclosed
        rw [takeAlong_true_quote, takeAlong_true_quote, ih hrest, join_assoc]
      | false =>
        have hrest : openAfter true rest = false := hclosed
        rw [takeAlong_false_quote, takeAlong_false_quote, ih hrest, join_assoc, join_assoc]
    · rw [openAfter_cons hquote] at hclosed
      cases inside with
      | true => rw [takeAlong_true_cons hquote, takeAlong_true_cons hquote, ih hclosed, join_assoc]
      | false =>
        by_cases hblank : isBlank c = true
        · rw [takeAlong_blank hblank, takeAlong_blank hblank, ih hclosed, join_assoc, join_assoc]
        · rw [takeAlong_letter hquote hblank, takeAlong_letter hquote hblank, ih hclosed]

/-! ## Texts without modifiers -/

/-- If nothing is taken out, this is the text that is left. -/
def Leaves (x : Except TooManyDigits Extraction) (s : List Char) : Prop :=
  ∀ e, x = .ok e → e.modifiers = [] → e.text = s

private theorem leaves_keep (s : List Char) : Leaves (keep s) s := by
  rintro e ⟨⟩ -
  rfl

theorem Leaves.join {s t : List Char} (hx : Leaves x s) (hy : Leaves y t) :
    Leaves (join x y) (s ++ t) := by
  intro e h hnone
  obtain ⟨a, b, ha, hb, rfl⟩ := exists_of_join h
  obtain ⟨hnoneA, hnoneB⟩ := List.append_eq_nil_iff.mp hnone
  exact congrArg₂ _ (hx a ha hnoneA) (hy b hb hnoneB)

private theorem leaves_ending (word : List Char) : Leaves (ending word) word.reverse := by
  intro e h hnone
  rw [ending] at h
  split at h
  · obtain rfl := Except.ok.inj h
    simp
  · rename_i wording _
    cases hmodifier : ofWording wording with
    | error cause =>
      rw [hmodifier] at h
      cases h
    | ok modifier =>
      rw [hmodifier] at h
      obtain rfl := Except.ok.inj h
      cases hnone

private theorem leaves_takeAlong (inside : Bool) (word s : List Char) :
    Leaves (takeAlong inside word s) ((if inside then [] else word.reverse) ++ s) := by
  induction s generalizing inside word with
  | nil =>
    rw [List.append_nil]
    cases inside with
    | true => exact leaves_keep []
    | false => exact leaves_ending word
  | cons c rest ih =>
    by_cases hquote : c = '"'
    · subst hquote
      cases inside with
      | true => exact (leaves_keep ['"']).join (ih false [])
      | false => exact (leaves_ending word).join ((leaves_keep ['"']).join (ih true []))
    · cases inside with
      | true =>
        rw [takeAlong_true_cons hquote]
        exact (leaves_keep [c]).join (ih true [])
      | false =>
        by_cases hblank : isBlank c = true
        · rw [takeAlong_blank hblank]
          exact (leaves_ending word).join ((leaves_keep [c]).join (ih false []))
        · rw [takeAlong_letter hquote hblank]
          have hletter := ih false (c :: word)
          simpa using hletter

/-! ## Blanks around a text -/

section

variable {s blanks : List Char}

theorem extract_blanks_append (h : ∀ c ∈ blanks, isBlank c = true) :
    extract (blanks ++ s) = extract s := by
  rw [extract_eq, extract_eq, takeAlong_blanks h]
  cases takeAlong false [] s with
  | error cause => rfl
  | ok e =>
    refine congrArg Except.ok (congrArg (Extraction.mk · e.modifiers) ?_)
    exact trim_blanks_append h

theorem extract_append_blanks (hclosed : openAfter false s = false)
    (h : ∀ c ∈ blanks, isBlank c = true) : extract (s ++ blanks) = extract s := by
  have hstarts : StartsBlank blanks := fun c hc ↦ h c (List.mem_of_mem_head? hc)
  have hblanks := takeAlong_blanks h []
  rw [List.append_nil, takeAlong, if_neg Bool.false_ne_true, ending_nil, join_keep_nil] at hblanks
  rw [extract_eq, extract_eq, takeAlong_append hclosed hstarts, hblanks, join_keep_eq_map]
  cases takeAlong false [] s with
  | error cause => rfl
  | ok e =>
    refine congrArg Except.ok (congrArg (Extraction.mk · e.modifiers) ?_)
    exact trim_append_blanks h

theorem text_of_extract {e : Extraction} (h : extract s = .ok e) (hnone : e.modifiers = []) :
    e.text = trim s := by
  rw [extract_eq] at h
  cases htake : takeAlong false [] s with
  | error cause =>
    rw [htake] at h
    cases h
  | ok a =>
    rw [htake] at h
    obtain rfl := Except.ok.inj h
    exact congrArg trim (leaves_takeAlong false [] s a htake hnone)

end

end Modifier

end SceneSearch
