import SceneSearch.Proofs.Query.Tokens
import SceneSearch.Proofs.Query.Words

/-!
# Queries that are refused

Any query has a plan, but for an index with too many digits. Where such an index counts is told
here by the parts that a query is cut into: its pieces, their parts between double quotes, and in
every other of these, the first one included, the runs of characters between blanks. A query is
refused for the first run that is a number with too many digits; `parseQuery_refuses` says so.

The runs of a query are the words that are read off it, `readWords`, and those of a piece are the
words among its tokens as a name query, since slashes in a piece stand in quotes.
-/

namespace SceneSearch

/-! ## Runs of a text -/

variable {inside : Bool} {k n : Nat} {done w s t : List Char} {c : Char}

/-- A part of a text without blanks that is as long as it can be. -/
def IsRun (w s : List Char) : Prop :=
  w ≠ [] ∧ (∀ c ∈ w, isBlank c = false) ∧ ∃ before after, s = before ++ w ++ after ∧
    (∀ c, before.getLast? = some c → isBlank c = true) ∧
    ∀ c, after.head? = some c → isBlank c = true

private theorem isRun_of_plain (h : ∀ c ∈ s, isBlank c = false) : IsRun w s ↔ w ≠ [] ∧ w = s := by
  constructor
  · rintro ⟨hne, -, before, after, rfl, hbefore, hafter⟩
    refine ⟨hne, ?_⟩
    have hnone : ∀ c ∈ before ++ w ++ after, ¬isBlank c = true := fun c hc ↦ by simp [h c hc]
    have hbefore' : before = [] := by
      by_contra hsome
      exact hnone _ (by simp) (hbefore _ (List.getLast?_eq_some_getLast hsome))
    have hafter' : after = [] := by
      by_contra hsome
      exact hnone _ (by simp) (hafter _ (List.head?_eq_some_head hsome))
    rw [hbefore', hafter', List.nil_append, List.append_nil]
  · rintro ⟨hne, rfl⟩
    exact ⟨hne, h, [], [], by simp, nofun, nofun⟩

theorem IsRun.append_blank (h : IsRun w s) (hc : isBlank c = true) (t : List Char) :
    IsRun w (s ++ c :: t) := by
  obtain ⟨hne, hplain, before, after, rfl, hbefore, hafter⟩ := h
  refine ⟨hne, hplain, before, after ++ c :: t, by simp, hbefore, fun d hd ↦ ?_⟩
  rcases after with _ | ⟨e, after⟩
  · obtain rfl := Option.some.inj hd
    exact hc
  · exact hafter d hd

/-- Runs stay runs where any text and a blank are put in front of them. -/
theorem IsRun.blank_append (h : IsRun w t) (hc : isBlank c = true) (s : List Char) :
    IsRun w (s ++ c :: t) := by
  obtain ⟨hne, hplain, before, after, rfl, hbefore, hafter⟩ := h
  refine ⟨hne, hplain, s ++ c :: before, after, by simp, fun d hd ↦ ?_, hafter⟩
  rw [List.getLast?_append, List.getLast?_cons, Option.some_or] at hd
  obtain rfl := Option.some.inj hd
  rcases hlast : before.getLast? with _ | e
  · exact hc
  · exact hbefore e hlast

private theorem isRun_append_blank (hc : isBlank c = true) :
    IsRun w (s ++ c :: t) ↔ IsRun w s ∨ IsRun w t := by
  refine ⟨?_, fun h ↦ h.elim (IsRun.append_blank · hc t) (IsRun.blank_append · hc s)⟩
  rintro ⟨hne, hplain, before, after, heq, hbefore, hafter⟩
  have hmem : c ∉ w := fun hmem ↦ by simp [hplain c hmem] at hc
  rw [List.append_assoc] at heq
  -- the blank is no part of the run, so it stands before all of it or behind all of it
  rcases List.append_eq_append_iff.mp heq with ⟨more, rfl, hmore⟩ | ⟨more, rfl, hmore⟩
  · rcases more with _ | ⟨d, more⟩
    · obtain ⟨d, u, rfl⟩ := List.exists_cons_of_ne_nil hne
      obtain ⟨rfl, -⟩ := List.cons.inj hmore
      exact absurd List.mem_cons_self hmem
    · obtain ⟨rfl, rfl⟩ := List.cons.inj hmore
      refine Or.inr ⟨hne, hplain, more, after, (List.append_assoc ..).symm, fun d hd ↦ ?_, hafter⟩
      refine hbefore d ?_
      rw [List.getLast?_append, List.getLast?_cons, hd]
      rfl
  · rcases List.append_eq_append_iff.mp hmore with ⟨more', rfl, rfl⟩ | ⟨more', rfl, hmore'⟩
    · refine Or.inl ⟨hne, hplain, before, more', (List.append_assoc ..).symm, hbefore, ?_⟩
      exact fun d hd ↦ hafter d (by rw [List.head?_append, hd]; rfl)
    · rcases more' with _ | ⟨d, more'⟩
      · exact Or.inl ⟨hne, hplain, before, [], by simp, hbefore, nofun⟩
      · obtain ⟨rfl, -⟩ := List.cons.inj hmore'
        exact absurd (by simp) hmem

theorem mem_wordsIn_iff : w ∈ wordsIn s ↔ IsRun w s := by
  induction hlength : s.length using Nat.strongRecOn generalizing s with
  | ind m ih =>
    by_cases hplain : ∀ c ∈ s, isBlank c = false
    · rw [wordsIn_of_plain hplain, isRun_of_plain hplain]
      cases s <;> simp +contextual
    · push Not at hplain
      obtain ⟨c, hmem, hc⟩ := hplain
      obtain ⟨u, t, rfl⟩ := List.append_of_mem hmem
      replace hc : isBlank c = true := by simpa using hc
      simp only [List.length_append, List.length_cons] at hlength
      rw [wordsIn_append_blank hc, isRun_append_blank hc, List.mem_append,
        ih u.length (by omega) rfl, ih t.length (by omega) rfl]

/-! ## Runs that are refused -/

namespace Modifier

/-- A run that is a number with too many digits: two dashes, more digits than the limit, of any
script, and then an `e` or nothing. -/
def Overlong (run : List Char) (n : Nat) : Prop :=
  ∃ digits each, run = '-' :: '-' :: (digits ++ eachMark each) ∧
    (∀ c ∈ digits, isDigit c = true) ∧ digits.length = n ∧ digitLimit < n

theorem overlong_iff {run : List Char} : Overlong run n ↔
    ∃ wording, wording? run = some wording ∧ ofWording wording = .error ⟨n⟩ := by
  constructor
  · rintro ⟨digits, each, rfl, hdigits, rfl, hlong⟩
    have hne : digits ≠ [] := by
      rintro rfl
      exact absurd hlong (by decide)
    refine ⟨_, wording?_digits each hne hdigits, ?_⟩
    rw [ofWording, naturalOfDigits_eq_error hlong]
    rfl
  · rintro ⟨wording, hwording, hof⟩
    rcases written_of_wording? hwording with
      ⟨w, rfl, -⟩ | ⟨digits, each, rfl, -, hdigits, rfl⟩
    · cases hof
    · rw [ofWording] at hof
      rcases Nat.lt_or_ge digitLimit digits.length with hlong | hlength
      · rw [naturalOfDigits_eq_error hlong] at hof
        obtain rfl : digits.length = n := by simpa [Except.map] using hof
        exact ⟨digits, each, rfl, hdigits, rfl, hlong⟩
      · rw [naturalOfDigits_eq_ok hlength] at hof
        cases hof

theorem amongWords_singleton_eq_error_iff {run : List Char} {cause : TooManyDigits} :
    amongWords [run] = .error cause ↔ Overlong run cause.count := by
  rw [overlong_iff, amongWords, List.filterMap_cons, List.filterMap_nil]
  cases wording? run with
  | none => simp [pure, Except.pure]
  | some wording =>
    change [wording].mapM ofWording = _ ↔ _
    rw [List.mapM_cons]
    cases hof : ofWording wording <;> simp [hof, bind, pure, Except.bind, Except.pure]

private theorem amongWords_eq_mapM (words : List (List Char)) :
    amongWords words = (words.mapM fun run ↦ amongWords [run]).map List.flatten := by
  induction words with
  | nil => rfl
  | cons run rest ih =>
    rw [← List.singleton_append, amongWords_append, ih, List.singleton_append, List.mapM_cons]
    cases amongWords [run] <;> cases rest.mapM fun run ↦ amongWords [run] <;> rfl

/-- Of several runs the first one that is a number with too many digits is refused. -/
theorem amongWords_eq_error_iff {words : List (List Char)} {cause : TooManyDigits} :
    amongWords words = .error cause ↔ ∃ before run after, words = before ++ run :: after ∧
      (∀ r ∈ before, ¬∃ n, Overlong r n) ∧ Overlong run cause.count := by
  have hgood : ∀ {r}, (∃ modifiers, amongWords [r] = .ok modifiers) ↔ ¬∃ n, Overlong r n := by
    intro r
    cases h : amongWords [r] with
    | error e => simpa using ⟨e.count, amongWords_singleton_eq_error_iff.mp h⟩
    | ok modifiers =>
      refine iff_of_true ⟨_, rfl⟩ ?_
      rintro ⟨n, hn⟩
      rw [(@amongWords_singleton_eq_error_iff r ⟨n⟩).mpr hn] at h
      cases h
  have hmap : amongWords words = .error cause ↔
      (words.mapM fun run ↦ amongWords [run]) = .error cause := by
    rw [amongWords_eq_mapM]
    cases words.mapM fun run ↦ amongWords [run] <;> simp [Except.map]
  rw [hmap, mapM_eq_error_iff]
  simp only [hgood, amongWords_singleton_eq_error_iff]

theorem exists_amongWords_eq_error_iff {words : List (List Char)} :
    (∃ cause, amongWords words = .error cause) ↔ ∃ run ∈ words, ∃ n, Overlong run n := by
  constructor
  · rintro ⟨cause, h⟩
    obtain ⟨before, run, after, rfl, -, hrun⟩ := amongWords_eq_error_iff.mp h
    exact ⟨run, by simp, cause.count, hrun⟩
  · rintro ⟨run, hmem, n, hn⟩
    obtain ⟨before, after, rfl⟩ := List.append_of_mem hmem
    have hrun := (@amongWords_singleton_eq_error_iff run ⟨n⟩).mpr hn
    rw [← List.singleton_append, amongWords_append, amongWords_append, hrun]
    cases amongWords before <;> exact ⟨_, rfl⟩

end Modifier

/-! ## The runs of a query -/

/-- The runs of a text outside quotes: those of every other of its parts between double quotes, the
first one included. -/
def unquotedRuns (text : List Char) : List (List Char) :=
  (text.splitOn '"').zipIdx.flatMap fun part ↦ if Even part.2 then wordsIn part.1 else []

theorem mem_unquotedRuns_iff {text run : List Char} :
    run ∈ unquotedRuns text ↔
      ∃ (k : Nat) (part : List Char),
        Even k ∧ (text.splitOn '"')[k]? = some part ∧ IsRun run part := by
  simp only [unquotedRuns, List.mem_flatMap, Prod.exists, List.mem_zipIdx_iff_getElem?]
  constructor
  · rintro ⟨part, k, hpart, hrun⟩
    split at hrun
    · rename_i hk
      exact ⟨k, part, hk, hpart, mem_wordsIn_iff.mp hrun⟩
    · cases hrun
  · rintro ⟨k, part, hk, hpart, hrun⟩
    refine ⟨part, k, hpart, ?_⟩
    rw [if_pos hk]
    exact mem_wordsIn_iff.mpr hrun

namespace NameToken

/-- The text of a word. -/
def word? : NameToken → Option (List Char)
  | word t => some t
  | literal _ => none

private theorem filterMap_ofParts (parts : List (List Char)) :
    (ofParts k parts).filterMap word? =
      (parts.zipIdx k).flatMap fun part ↦ if Even part.2 then wordsIn part.1 else [] := by
  rw [ofParts, List.filterMap_flatMap]
  refine List.flatMap_congr fun part _ ↦ ?_
  rw [ofPart]
  split
  · rw [List.filterMap_map]
    exact List.filterMap_some
  · split <;> rfl

/-- The words among the tokens of a text whose slashes stand in quotes are those that are read off
it. Of a literal that is being read nothing is kept. -/
theorem filterMap_scan {kept : List Char} (hkept : kept = if inside then [] else done)
    (hslash : ∀ before after, s = before ++ '/' :: after → openAfter inside before = true) :
    (scan inside done s).filterMap word? = Modifier.readWords inside kept s := by
  have hword : ∀ done, (pendingWord done).filterMap word? = Modifier.pendingWord done := by
    intro done
    rw [pendingWord, Modifier.pendingWord]
    split <;> rfl
  have hliteral : ∀ done, (pendingLiteral done).filterMap word? = [] := by
    intro done
    rw [pendingLiteral]
    split <;> rfl
  subst hkept
  induction s generalizing inside done with
  | nil =>
    cases inside with
    | true => exact hliteral done
    | false => exact hword done
  | cons c rest ih =>
    have hrest : ∀ before after, rest = before ++ '/' :: after →
        openAfter (openAfter inside [c]) before = true := by
      rintro before after rfl
      rw [← openAfter_append]
      exact hslash (c :: before) after rfl
    by_cases hquote : c = '"'
    · subst hquote
      rw [scan_quote, List.filterMap_append]
      cases inside with
      | true =>
        rw [Modifier.readWords_inside]
        exact congrArg₂ (· ++ ·) (hliteral done) (@ih false [] hrest)
      | false =>
        rw [Modifier.readWords_end (by decide)]
        exact congrArg₂ (· ++ ·) (hword done) (@ih true [] hrest)
    · rw [openAfter_cons hquote] at hrest
      cases inside with
      | true =>
        rw [scan_letter hquote (by simp), Modifier.readWords_inside, decide_eq_true hquote]
        exact @ih true (c :: done) hrest
      | false =>
        have hc : c ≠ '/' := by
          rintro rfl
          exact Bool.false_ne_true (hslash [] rest rfl)
        by_cases hblank : isBlank c = true
        · rw [scan_blank hblank, List.filterMap_append, if_neg Bool.false_ne_true,
            Modifier.readWords_end (by simp [Modifier.endsWord, hblank]), decide_eq_false hquote]
          exact congrArg₂ (· ++ ·) (hword done) (@ih false [] hrest)
        · rw [scan_letter hquote (by simpa using hblank), if_neg Bool.false_ne_true,
            Modifier.readWords_letter (by simp [Modifier.endsWord, *])]
          exact @ih false (c :: done) hrest

end NameToken

namespace QueryPlan

open Modifier

variable {query : String}

/-- The runs of a query outside quotes, those of one piece after the other. -/
def runs (query : String) : List (List Char) :=
  (Piece.split (String.ofList (trim query.toList))).flatMap fun p ↦ unquotedRuns p.text

private theorem readWords_of_slashesQuoted (h : Piece.SlashesQuoted s) :
    readWords false [] s = unquotedRuns s := by
  rw [← @NameToken.filterMap_scan false [] s [] rfl h, NameToken.scan_eq NameToken.reads_start]
  obtain ⟨part, parts, hchunks⟩ := List.exists_cons_of_ne_nil (List.splitOn_ne_nil '"' s)
  rw [chunks, unquotedRuns, hchunks]
  exact NameToken.filterMap_ofParts (part :: parts)

theorem parseQuery_eq_error_iff {cause : TooManyDigits} :
    parseQuery query = .error cause ↔ amongWords (runs query) = .error cause := by
  have hquoted : ∀ p ∈ Piece.split (String.ofList (trim query.toList)),
      Piece.SlashesQuoted p.text := by
    intro p hp
    rw [Piece.split, String.toList_ofList] at hp
    exact @Piece.slashesQuoted_of_mem_cut .start false [] _ p rfl Piece.slashesQuoted_nil hp
  have hruns : (cleanPieces query).map (List.flatMap CleanPiece.modifiers) =
      amongWords (runs query) := by
    rw [cleanPieces, map_modifiers_mapM_ofPiece hquoted, runs]
    exact congrArg amongWords (List.flatMap_congr fun p hp ↦
      readWords_of_slashesQuoted (hquoted p hp))
  rw [parseQuery_eq, ← hruns]
  cases cleanPieces query <;> simp [Except.map]

/-- **Which queries are refused.** A query has a plan unless, in some piece of it, some run of an
even-numbered part between double quotes is a number with too many digits. The refusal is that of
the first such run, and it names how many digits this has. -/
theorem parseQuery_refuses (query : String) :
    ((∃ plan, parseQuery query = .ok plan) ↔
      ¬∃ p ∈ Piece.split (String.ofList (trim query.toList)),
        ∃ (k : Nat) (part run : List Char) (n : Nat), Even k ∧
          (p.text.splitOn '"')[k]? = some part ∧ IsRun run part ∧ Overlong run n) ∧
      ∀ cause, (parseQuery query = .error cause ↔
        ∃ before run after, runs query = before ++ run :: after ∧
          (∀ r ∈ before, ¬∃ n, Overlong r n) ∧ Overlong run cause.count) ∧
        cause.message =
          "Exceeds the limit (4300 digits) for integer string conversion: value has " ++
            toString cause.count ++
              " digits; use sys.set_int_max_str_digits() to increase the limit" := by
  have hcause : ∀ cause, parseQuery query = .error cause ↔
      ∃ before run after, runs query = before ++ run :: after ∧
        (∀ r ∈ before, ¬∃ n, Overlong r n) ∧ Overlong run cause.count := fun cause ↦
    parseQuery_eq_error_iff.trans amongWords_eq_error_iff
  have hplan : (∃ plan, parseQuery query = .ok plan) ↔
      ¬∃ cause, parseQuery query = .error cause := by
    cases parseQuery query <;> simp
  refine ⟨?_, fun cause ↦ ⟨hcause cause, rfl⟩⟩
  simp only [hplan, parseQuery_eq_error_iff, exists_amongWords_eq_error_iff, runs,
    List.mem_flatMap, mem_unquotedRuns_iff]
  refine not_congr ⟨?_, ?_⟩
  · rintro ⟨run, ⟨p, hp, k, part, hk, hpart, hrun⟩, n, hn⟩
    exact ⟨p, hp, k, part, run, n, hk, hpart, hrun, hn⟩
  · rintro ⟨p, hp, k, part, run, n, hk, hpart, hrun, hn⟩
    exact ⟨run, ⟨p, hp, k, part, hk, hpart, hrun⟩, n, hn⟩

end QueryPlan

end SceneSearch
