import Mathlib.Data.List.TakeWhile
import SceneSearch.Query.Modifier

/-!
# The matches of the modifier pattern

A modifier is found by a pattern with several ways to go on and a look to either side. Since no
character of a modifier is a blank, there is only one way in the end: from where a word starts, the
pattern matches the whole word if that is spelled as a modifier, and from elsewhere it matches
nothing. That is `Modifier.match?_pattern`, and with it a search for modifiers goes along a text
word by word.
-/

namespace SceneSearch

/-- A text that starts no new word starts with a blank, if with anything. -/
def StartsBlank (t : List Char) : Prop := ∀ c, t.head? = some c → isBlank c = true

theorem StartsBlank.nil : StartsBlank [] := nofun

theorem startsBlank_cons {c : Char} {t : List Char} : StartsBlank (c :: t) ↔ isBlank c = true :=
  ⟨fun h ↦ h c rfl, fun h _ hd ↦ Option.some.inj hd ▸ h⟩

theorem any_head?_eq_false_iff {t : List Char} :
    t.head?.any (!isBlank ·) = false ↔ StartsBlank t := by
  cases t with
  | nil => exact iff_of_true rfl .nil
  | cons c t => simp [startsBlank_cons]

/-- A run of one kind ends in front of the first character of another kind. -/
private theorem takeWhile_dropWhile_append {kind : Char → Bool} {u t : List Char}
    (hu : ∀ c ∈ u, kind c = true) (ht : ∀ c, t.head? = some c → kind c = false) :
    (u ++ t).takeWhile kind = u ∧ (u ++ t).dropWhile kind = t := by
  rw [List.takeWhile_append_of_pos hu, List.dropWhile_append_of_pos hu]
  cases t with
  | nil => simp
  | cons c t => simp [ht c rfl]

/-! ## Where patterns end -/

/-- The text between two positions. -/
def Cursor.Spans (start stop : Cursor) (u : List Char) : Prop :=
  start.after = u ++ stop.after ∧ stop.before = u.reverse ++ start.before

theorem Cursor.Spans.append {start middle stop : Cursor} {u v : List Char}
    (hu : start.Spans middle u) (hv : middle.Spans stop v) : start.Spans stop (u ++ v) := by
  rw [Spans, hu.1, hv.1, hv.2, hu.2, List.reverse_append]
  simp

theorem Cursor.spans_append_iff {start stop : Cursor} {u v : List Char} :
    start.Spans stop (u ++ v) ↔ ∃ middle, start.Spans middle u ∧ middle.Spans stop v := by
  refine ⟨fun h ↦ ⟨⟨u.reverse ++ start.before, v ++ stop.after⟩, ⟨?_, rfl⟩, rfl, ?_⟩,
    fun ⟨_, hu, hv⟩ ↦ hu.append hv⟩
  · rw [h.1, List.append_assoc]
  · rw [h.2, List.reverse_append, List.append_assoc]

namespace Pattern

variable {p q : Pattern} {start stop : Cursor} {kind : Char → Bool} {u : List Char}

theorem mem_ends_literal {text : List Char} :
    stop ∈ (literal text).ends start ↔ start.Spans stop text := by
  obtain ⟨before, after⟩ := start
  obtain ⟨before', after'⟩ := stop
  rw [ends]
  split
  · rename_i hprefix
    obtain ⟨rest, rfl⟩ := List.isPrefixOf_iff_prefix.mp hprefix
    simp [Cursor.Spans, and_comm, eq_comm]
  · rename_i hprefix
    refine iff_of_false List.not_mem_nil fun h ↦ hprefix ?_
    exact List.isPrefixOf_iff_prefix.mpr ⟨_, h.1.symm⟩

theorem mem_manyEnds {before s : List Char} :
    stop ∈ manyEnds kind before s ↔
      ∃ u, u ≠ [] ∧ (∀ c ∈ u, kind c = true) ∧ Cursor.Spans ⟨before, s⟩ stop u := by
  induction s generalizing before with
  | nil =>
    refine iff_of_false List.not_mem_nil ?_
    rintro ⟨u, hne, -, h, -⟩
    exact hne (List.append_eq_nil_iff.mp h.symm).1
  | cons c rest ih =>
    rw [manyEnds]
    split
    · rename_i hc
      rw [List.mem_append, List.mem_singleton, ih]
      constructor
      · rintro (⟨u, -, hu, hafter, hbefore⟩ | rfl)
        · refine ⟨c :: u, List.cons_ne_nil _ _, List.forall_mem_cons.mpr ⟨hc, hu⟩, ?_, ?_⟩
          · exact congrArg (c :: ·) hafter
          · simpa using hbefore
        · exact ⟨[c], List.cons_ne_nil _ _, List.forall_mem_singleton.mpr hc, rfl, rfl⟩
      · rintro ⟨u, hne, hu, hafter, hbefore⟩
        obtain ⟨d, u, rfl⟩ := List.exists_cons_of_ne_nil hne
        obtain ⟨rfl, hrest⟩ := List.cons.inj hafter
        cases u with
        | nil =>
          obtain ⟨before', after'⟩ := stop
          obtain rfl : rest = after' := hrest
          obtain rfl : before' = c :: before := hbefore
          exact Or.inr rfl
        | cons d u =>
          refine Or.inl ⟨d :: u, List.cons_ne_nil _ _, (List.forall_mem_cons.mp hu).2, hrest, ?_⟩
          simpa using hbefore
    · rename_i hc
      refine iff_of_false List.not_mem_nil ?_
      rintro ⟨u, hne, hu, hafter, -⟩
      obtain ⟨d, u, rfl⟩ := List.exists_cons_of_ne_nil hne
      obtain ⟨rfl, -⟩ := List.cons.inj hafter
      exact hc (hu c List.mem_cons_self)

theorem mem_ends_many : stop ∈ (many kind).ends start ↔
    ∃ u, u ≠ [] ∧ (∀ c ∈ u, kind c = true) ∧ start.Spans stop u := mem_manyEnds

theorem mem_ends_andThen :
    stop ∈ (p.andThen q).ends start ↔ ∃ middle ∈ p.ends start, stop ∈ q.ends middle :=
  List.mem_flatMap

theorem mem_ends_orElse :
    stop ∈ (p.orElse q).ends start ↔ stop ∈ p.ends start ∨ stop ∈ q.ends start := List.mem_append

theorem mem_ends_notBehind :
    stop ∈ (notBehind kind).ends start ↔ start.before.head?.any kind = false ∧ stop = start := by
  rw [ends]
  split <;> simp_all

theorem mem_ends_notAhead :
    stop ∈ (notAhead kind).ends start ↔ start.after.head?.any kind = false ∧ stop = start := by
  rw [ends]
  split <;> simp_all

private theorem match?_eq_some (hne : ∃ stop, stop ∈ p.ends start)
    (h : ∀ stop ∈ p.ends start, start.after = u ++ stop.after) : p.match? start = some u := by
  obtain ⟨stop, hstop⟩ := hne
  obtain ⟨first, hfirst⟩ := Option.isSome_iff_exists.mp
    (List.isSome_head?.mpr (List.ne_nil_of_mem hstop))
  rw [match?, hfirst, Option.map_some, h first (List.mem_of_mem_head? hfirst)]
  simp

private theorem match?_eq_none (h : ∀ stop, stop ∉ p.ends start) : p.match? start = none := by
  rw [match?, List.eq_nil_iff_forall_not_mem.mpr h]
  rfl

/-! ## Parts of a text -/

theorem partsFrom_append (before u t : List Char) :
    p.partsFrom before u.length (u ++ t) = p.partsFrom (u.reverse ++ before) 0 t := by
  induction u generalizing before with
  | nil => rfl
  | cons c u ih =>
    rw [List.length_cons, List.cons_append, partsFrom, ih]
    simp

theorem partsFrom_of_match?_eq_none {before rest : List Char} {c : Char}
    (h : p.match? ⟨before, c :: rest⟩ = none) :
    p.partsFrom before 0 (c :: rest) = .kept c :: p.partsFrom (c :: before) 0 rest := by
  rw [partsFrom, h]

private theorem partsFrom_of_match?_eq_some {before u t : List Char} (hne : u ≠ [])
    (h : p.match? ⟨before, u ++ t⟩ = some u) :
    p.partsFrom before 0 (u ++ t) = .matched u :: p.partsFrom (u.reverse ++ before) 0 t := by
  obtain ⟨c, u, rfl⟩ := List.exists_cons_of_ne_nil hne
  rw [List.cons_append] at h ⊢
  rw [partsFrom, h]
  dsimp only
  rw [partsFrom_append]
  simp

end Pattern

/-! ## Digits -/

theorem of_isDigit {P : Char → Prop}
    (h : ∀ first ∈ digitZeros, ∀ k : Fin 10, P (.ofNat (first + k))) {c : Char}
    (hc : isDigit c = true) : P c := by
  obtain ⟨v, hv⟩ := isDigit_iff.mp hc
  obtain ⟨first, hfirst, -⟩ := Option.map_eq_some_iff.mp hv
  have hrange := List.find?_some hfirst
  simp only [Bool.and_eq_true, decide_eq_true_eq] at hrange
  have hP := h first (List.mem_of_find?_eq_some hfirst) ⟨c.toNat - first, by omega⟩
  rwa [show first + (c.toNat - first) = c.toNat by omega, Char.ofNat_toNat] at hP

private theorem isBlank_of_isDigit {c : Char} (h : isDigit c = true) : isBlank c = false :=
  of_isDigit (P := fun c ↦ isBlank c = false) (by decide) h

namespace Modifier

/-! ## Words -/

/-- What a modifier says: a flag, or a run of digits and whether an `e` follows it. -/
inductive Wording where
  | flag (modifier : Modifier)
  | digits (run : List Char) (each : Bool)
deriving DecidableEq, Repr

/-- The modifier of a wording; a number may have too many digits. -/
def ofWording : Wording → Except TooManyDigits Modifier
  | .flag modifier => .ok modifier
  | .digits run each => (naturalOfDigits run).map fun n ↦ if each then indexEach n else index n

/-- The letter behind the number of a pick in each scope. -/
def eachMark (each : Bool) : List Char := if each then ['e'] else []

/-- How it is spelled behind the two dashes. -/
inductive Spelling : List Char → Wording → Prop
  | firstOverall : Spelling ['f'] (.flag .firstOverall)
  | firstEach : Spelling ['f', 'e'] (.flag .firstEach)
  | hiddenOnly : Spelling ['h'] (.flag .hiddenOnly)
  | allLayers : Spelling ['a'] (.flag .allLayers)
  | digits (run : List Char) (each : Bool) (hne : run ≠ [])
      (hdigits : ∀ c ∈ run, isDigit c = true) : Spelling (run ++ eachMark each) (.digits run each)

/-- What a whole word says, if it is a modifier. -/
def wording? (word : List Char) : Option Wording :=
  match word with
  | '-' :: '-' :: body =>
    if body = ['f'] then some (.flag firstOverall)
    else if body = ['f', 'e'] then some (.flag firstEach)
    else if body = ['h'] then some (.flag hiddenOnly)
    else if body = ['a'] then some (.flag allLayers)
    else
      let run := body.takeWhile isDigit
      let after := body.dropWhile isDigit
      if run.isEmpty then none
      else if after.isEmpty then some (.digits run false)
      else if after = ['e'] then some (.digits run true)
      else none
  | _ => none

variable {body digits word : List Char} {wording : Wording}

/-- What starts with a digit is not spelled as a flag is. -/
private theorem digits_append_ne_cons (hne : digits ≠ []) (h : ∀ c ∈ digits, isDigit c = true)
    (after : List Char) {c : Char} (rest : List Char) (hc : isDigit c = false) :
    digits ++ after ≠ c :: rest := by
  obtain ⟨d, digits, rfl⟩ := List.exists_cons_of_ne_nil hne
  intro heq
  rw [← (List.cons.inj heq).1, h d List.mem_cons_self] at hc
  cases hc

theorem wording?_digits (each : Bool) (hne : digits ≠ []) (h : ∀ c ∈ digits, isDigit c = true) :
    wording? ('-' :: '-' :: (digits ++ eachMark each)) = some (.digits digits each) := by
  have hmark : ∀ c, (eachMark each).head? = some c → isDigit c = false := by
    cases each with
    | false => exact nofun
    | true =>
      rintro _ ⟨⟩
      decide
  obtain ⟨htake, hdrop⟩ := takeWhile_dropWhile_append h hmark
  have hflag := fun {c} ↦ digits_append_ne_cons (c := c) hne h (eachMark each)
  have hempty : digits.isEmpty = false := List.isEmpty_eq_false_iff.mpr hne
  rw [wording?, if_neg (hflag [] (by decide)), if_neg (hflag ['e'] (by decide)),
    if_neg (hflag [] (by decide)), if_neg (hflag [] (by decide)), htake, hdrop]
  dsimp only
  rw [hempty]
  cases each <;> rfl

theorem wording?_eq_some_iff :
    wording? word = some wording ↔ ∃ body, word = '-' :: '-' :: body ∧ Spelling body wording := by
  constructor
  · intro h
    rw [wording?.eq_def] at h
    split at h
    · rename_i body
      have hbody : body.takeWhile isDigit ++ body.dropWhile isDigit = body :=
        List.takeWhile_append_dropWhile
      have hdigits : ∀ c ∈ body.takeWhile isDigit, isDigit c = true := fun _ hc ↦
        List.mem_takeWhile_imp hc
      refine ⟨body, rfl, ?_⟩
      simp only [List.isEmpty_iff] at h
      split_ifs at h with hf hfe hh ha hnone hend heach <;> obtain rfl := Option.some.inj h
      · exact hf ▸ .firstOverall
      · exact hfe ▸ .firstEach
      · exact hh ▸ .hiddenOnly
      · exact ha ▸ .allLayers
      · have hspelling := Spelling.digits _ false hnone hdigits
        rwa [eachMark, if_neg Bool.false_ne_true, ← hend, hbody] at hspelling
      · have hspelling := Spelling.digits _ true hnone hdigits
        rwa [eachMark, if_pos rfl, ← heach, hbody] at hspelling
    · cases h
  · rintro ⟨body, rfl, hspelling⟩
    cases hspelling with
    | digits run each hne hdigits => exact wording?_digits each hne hdigits
    | _ => rfl

namespace Spelling

private theorem not_blank (h : Spelling body wording) : ∀ c ∈ body, isBlank c = false := by
  cases h with
  | digits run each hne hdigits =>
    refine List.forall_mem_append.mpr ⟨fun c hc ↦ isBlank_of_isDigit (hdigits c hc), ?_⟩
    cases each with
    | false => exact nofun
    | true => exact List.forall_mem_singleton.mpr rfl
  | firstEach => exact List.forall_mem_cons.mpr ⟨rfl, List.forall_mem_singleton.mpr rfl⟩
  | _ => exact List.forall_mem_singleton.mpr rfl

/-- What is taken for the modifier behind the dashes is the one that the word says. -/
theorem ofBody_eq (h : Spelling body wording) : ofBody body = ofWording wording := by
  cases h with
  | digits run each hne hdigits =>
    have hflag := fun {c} ↦ digits_append_ne_cons (c := c) hne hdigits (eachMark each)
    rw [ofBody, if_neg (hflag [] (by decide)), if_neg (hflag ['e'] (by decide)),
      if_neg (hflag [] (by decide)), if_neg (hflag [] (by decide))]
    cases each with
    | true =>
      rw [eachMark, if_pos rfl, if_pos List.getLast?_concat, List.dropLast_concat]
      rfl
    | false =>
      rw [eachMark, if_neg Bool.false_ne_true, List.append_nil, if_neg]
      · rfl
      · intro hlast
        have hdigit := hdigits 'e' (List.mem_of_getLast? hlast)
        exact absurd hdigit (by decide)
  | _ => rfl

end Spelling

/-! ## Matches -/

variable {before s t : List Char} {start stop : Cursor}

theorem mem_ends_bodyPattern :
    stop ∈ bodyPattern.ends start ↔
      ∃ body wording, Spelling body wording ∧ start.Spans stop body := by
  simp only [bodyPattern, Pattern.mem_ends_orElse, Pattern.mem_ends_andThen,
    Pattern.mem_ends_literal, Pattern.mem_ends_many]
  constructor
  · rintro (h | h | h | h | ⟨middle, ⟨run, hne, hdigits, hrun⟩, he⟩ | ⟨run, hne, hdigits, hrun⟩)
    · exact ⟨_, _, .firstEach, h⟩
    · exact ⟨_, _, .firstOverall, h⟩
    · exact ⟨_, _, .hiddenOnly, h⟩
    · exact ⟨_, _, .allLayers, h⟩
    · exact ⟨_, _, .digits run true hne hdigits, hrun.append he⟩
    · exact ⟨_, _, .digits run false hne hdigits, by rwa [eachMark, if_neg Bool.false_ne_true,
        List.append_nil]⟩
  · rintro ⟨body, wording, hspelling, h⟩
    cases hspelling with
    | firstEach => exact Or.inl h
    | firstOverall => exact Or.inr (Or.inl h)
    | hiddenOnly => exact Or.inr (Or.inr (Or.inl h))
    | allLayers => exact Or.inr (Or.inr (Or.inr (Or.inl h)))
    | digits run each hne hdigits =>
      refine Or.inr (Or.inr (Or.inr (Or.inr ?_)))
      cases each with
      | true =>
        obtain ⟨middle, hrun, he⟩ := Cursor.spans_append_iff.mp h
        exact Or.inl ⟨middle, ⟨run, hne, hdigits, hrun⟩, he⟩
      | false =>
        rw [eachMark, if_neg Bool.false_ne_true, List.append_nil] at h
        exact Or.inr ⟨run, hne, hdigits, h⟩

/-- Where a modifier may end: behind a word that says something, where words start and end. -/
theorem mem_ends_pattern :
    stop ∈ pattern.ends start ↔ StartsBlank start.before ∧ StartsBlank stop.after ∧
      ∃ word wording, wording? word = some wording ∧ start.Spans stop word := by
  simp only [pattern, Pattern.mem_ends_andThen, Pattern.mem_ends_notBehind,
    Pattern.mem_ends_notAhead, Pattern.mem_ends_literal, mem_ends_bodyPattern,
    any_head?_eq_false_iff, wording?_eq_some_iff]
  constructor
  · rintro ⟨_, ⟨hbefore, rfl⟩, middle, hdashes, _, ⟨body, wording, hspelling, hbody⟩, hafter, rfl⟩
    exact ⟨hbefore, hafter, _, wording, ⟨body, rfl, hspelling⟩, hdashes.append hbody⟩
  · rintro ⟨hbefore, hafter, _, wording, ⟨body, rfl, hspelling⟩, hword⟩
    obtain ⟨middle, hdashes, hbody⟩ := Cursor.spans_append_iff (u := ['-', '-']).mp hword
    exact ⟨start, ⟨hbefore, rfl⟩, middle, hdashes, stop, ⟨body, wording, hspelling, hbody⟩, hafter,
      rfl⟩

private theorem not_blank_of_wording? (h : wording? word = some wording) :
    ∀ c ∈ word, isBlank c = false := by
  obtain ⟨body, rfl, hspelling⟩ := wording?_eq_some_iff.mp h
  exact List.forall_mem_cons.mpr ⟨rfl, List.forall_mem_cons.mpr ⟨rfl, hspelling.not_blank⟩⟩

/-- The word at the start of a text. -/
def firstWord (s : List Char) : List Char := s.takeWhile (!isBlank ·)

theorem firstWord_append (hword : ∀ c ∈ word, isBlank c = false) (ht : StartsBlank t) :
    firstWord (word ++ t) = word := by
  refine (takeWhile_dropWhile_append (fun c hc ↦ ?_) fun c hc ↦ ?_).1
  · rw [hword c hc, Bool.not_false]
  · rw [ht c hc, Bool.not_true]

private theorem exists_firstWord (s : List Char) : ∃ t, s = firstWord s ++ t ∧ StartsBlank t := by
  refine ⟨s.dropWhile (!isBlank ·), List.takeWhile_append_dropWhile.symm, fun c hc ↦ ?_⟩
  have hhead := List.head?_dropWhile_not (!isBlank ·) s
  rw [hc] at hhead
  simpa using hhead

/-- **The matches are words**: where a word starts, the whole of it is matched if it says something,
and nothing is matched elsewhere. -/
theorem match?_pattern (before s : List Char) :
    pattern.match? ⟨before, s⟩ =
      if before.head?.any (!isBlank ·) = false ∧ (wording? (firstWord s)).isSome then
        some (firstWord s)
      else none := by
  -- every end is behind the first word
  have hends : ∀ {stop}, stop ∈ pattern.ends ⟨before, s⟩ →
      StartsBlank before ∧ (wording? (firstWord s)).isSome ∧ s = firstWord s ++ stop.after := by
    intro stop hstop
    obtain ⟨hbefore, hafter, word, wording, hwording, rfl, -⟩ := mem_ends_pattern.mp hstop
    rw [firstWord_append (not_blank_of_wording? hwording) hafter, hwording]
    exact ⟨hbefore, rfl, rfl⟩
  split
  · rename_i h
    obtain ⟨hbefore, hsome⟩ := h
    obtain ⟨wording, hwording⟩ := Option.isSome_iff_exists.mp hsome
    obtain ⟨t, hs, ht⟩ := exists_firstWord s
    refine Pattern.match?_eq_some ⟨⟨(firstWord s).reverse ++ before, t⟩, ?_⟩ fun stop hstop ↦
      (hends hstop).2.2
    exact mem_ends_pattern.mpr
      ⟨any_head?_eq_false_iff.mp hbefore, ht, _, wording, hwording, hs, rfl⟩
  · rename_i h
    refine Pattern.match?_eq_none fun stop hstop ↦ h ?_
    obtain ⟨hbefore, hsome, -⟩ := hends hstop
    exact ⟨any_head?_eq_false_iff.mpr hbefore, hsome⟩

/-! ## Searching for modifiers -/

private theorem match?_pattern_blank {c : Char} (h : isBlank c = true) (before rest : List Char) :
    pattern.match? ⟨before, c :: rest⟩ = none := by
  have hword : firstWord (c :: rest) = [] := by simp [firstWord, h]
  rw [match?_pattern, hword, if_neg]
  exact fun hsome ↦ absurd hsome.2 (by decide)

theorem partsFrom_blank {c : Char} (h : isBlank c = true) (before rest : List Char) :
    pattern.partsFrom before 0 (c :: rest) = .kept c :: pattern.partsFrom (c :: before) 0 rest :=
  Pattern.partsFrom_of_match?_eq_none (match?_pattern_blank h before rest)

private theorem partsFrom_inside (hbefore : before.head?.any (!isBlank ·) = true)
    (hword : ∀ c ∈ word, isBlank c = false) (t : List Char) :
    pattern.partsFrom before 0 (word ++ t) =
      word.map .kept ++ pattern.partsFrom (word.reverse ++ before) 0 t := by
  induction word generalizing before with
  | nil => rfl
  | cons c word ih =>
    obtain ⟨hc, hword⟩ := List.forall_mem_cons.mp hword
    have hnone : pattern.match? ⟨before, c :: (word ++ t)⟩ = none := by
      rw [match?_pattern, hbefore, if_neg (fun h ↦ nomatch h.1)]
    rw [List.cons_append, Pattern.partsFrom_of_match?_eq_none hnone, ih (by simp [hc]) hword]
    simp

theorem partsFrom_word (hbefore : StartsBlank before) (hword : ∀ c ∈ word, isBlank c = false)
    (ht : StartsBlank t) :
    pattern.partsFrom before 0 (word ++ t) =
      (if (wording? word).isSome then [.matched word] else word.map .kept) ++
        pattern.partsFrom (word.reverse ++ before) 0 t := by
  cases word with
  | nil => rfl
  | cons c word =>
    have hmatch := match?_pattern before (c :: word ++ t)
    rw [firstWord_append hword ht] at hmatch
    split
    · rename_i hsome
      rw [if_pos ⟨any_head?_eq_false_iff.mpr hbefore, hsome⟩] at hmatch
      exact Pattern.partsFrom_of_match?_eq_some (List.cons_ne_nil _ _) hmatch
    · rename_i hsome
      rw [if_neg fun h ↦ hsome h.2, List.cons_append] at hmatch
      obtain ⟨hc, hword⟩ := List.forall_mem_cons.mp hword
      rw [List.cons_append, Pattern.partsFrom_of_match?_eq_none hmatch,
        partsFrom_inside (by simp [hc]) hword]
      simp

theorem partsFrom_congr {before' : List Char} {left : Nat}
    (h : before.head?.any (!isBlank ·) = before'.head?.any (!isBlank ·)) (s : List Char) :
    pattern.partsFrom before left s = pattern.partsFrom before' left s := by
  induction s generalizing before before' left with
  | nil => cases left <;> rfl
  | cons c rest ih =>
    cases left with
    | zero =>
      have hrest : ∀ left, pattern.partsFrom (c :: before) left rest =
          pattern.partsFrom (c :: before') left rest := fun _ ↦ ih rfl
      rw [Pattern.partsFrom, Pattern.partsFrom, match?_pattern, match?_pattern, h]
      split <;> rw [hrest]
    | succ left => exact ih rfl

end Modifier

end SceneSearch
