import SceneSearch.Proofs.Query.Directive

/-!
# The pieces of a query are determined by it

A query is cut into pieces character by character. What the pieces are can be said without that:
written one after the other they are the query, separators are slashes outside quotes, a slash in a
text stands in quotes, and two slashes are never taken for two separators. `unquotedCutting_iff`
says that exactly one list has these properties, the pieces of the query.

That separators stand outside quotes has to be asked for. Without it a query can also be cut at a
slash in quotes, where the first half of the quoted text opens a quote and the second half closes
it.
-/

namespace SceneSearch

namespace Piece

variable {separator : Separator} {inside : Bool} {done s t text : List Char} {p : Piece}
  {pieces : List Piece} {pairs rest : List (List Char × List Char)}

/-! ## Texts with their separators -/

/-- The text of a piece, and how the separator in front is written. -/
def pair (p : Piece) : List Char × List Char := (p.text, p.separator.spelling)

/-- Texts one after the other, each behind its separator. -/
def written (pairs : List (List Char × List Char)) : List Char := pairs.flatMap fun p ↦ p.2 ++ p.1

/-- A text that is cut at slashes: nothing of it is lost, slashes that are left stand in quotes, and
two slashes are one separator. -/
structure Cutting (text : List Char) (pairs : List (List Char × List Char)) : Prop where
  /-- Put together, texts and separators are the whole text. -/
  written_eq : written pairs = text
  /-- There is nothing in front of the first text, and one or two slashes in front of the others. -/
  separators : ∃ first rest, pairs = first :: rest ∧ first.2 = [] ∧
    ∀ p ∈ rest, p.2 = ['/'] ∨ p.2 = ['/', '/']
  /-- In front of a slash in a text an odd number of quotes has been read. -/
  slashes_quoted : ∀ init p rest, pairs = init ++ p :: rest → ∀ before after,
    p.1 = before ++ '/' :: after → ¬Even ((written init ++ p.2 ++ before).count '"')
  /-- Behind one slash only the last text is empty. -/
  slashes_paired : ∀ init p rest, pairs = init ++ p :: rest → p.2 = ['/'] → p.1 = [] → rest = []

/-- A text that is cut at slashes outside quotes only. -/
structure UnquotedCutting (text : List Char) (pairs : List (List Char × List Char)) : Prop
    extends Cutting text pairs where
  /-- In front of a separator an even number of quotes has been read. -/
  separators_unquoted : ∀ init p rest, pairs = init ++ p :: rest →
    Even ((written init).count '"')

@[simp] theorem written_append (pairs more : List (List Char × List Char)) :
    written (pairs ++ more) = written pairs ++ written more := List.flatMap_append

@[simp] theorem written_cons (p : List Char × List Char) (rest : List (List Char × List Char)) :
    written (p :: rest) = p.2 ++ p.1 ++ written rest := rfl

private theorem written_map_pair (pieces : List Piece) :
    written (pieces.map pair) = spelling pieces :=
  List.flatMap_map ..

private theorem spelling_of_ne_start (h : separator ≠ .start) :
    separator.spelling = ['/'] ∨ separator.spelling = ['/', '/'] := by
  cases separator with
  | start => exact absurd rfl h
  | descend => exact Or.inl rfl
  | direct => exact Or.inr rfl

private theorem eq_descend_of_spelling (h : separator.spelling = ['/']) : separator = .descend := by
  cases separator with
  | start => cases h
  | descend => rfl
  | direct => cases h

private theorem exists_spelling_eq (h : s = ['/'] ∨ s = ['/', '/']) :
    ∃ separator : Separator, separator ≠ .start ∧ separator.spelling = s := by
  rcases h with rfl | rfl
  · exact ⟨.descend, nofun, rfl⟩
  · exact ⟨.direct, nofun, rfl⟩

theorem quote_not_mem_spelling (separator : Separator) : '"' ∉ separator.spelling := by
  cases separator <;> decide

theorem openAfter_spelling (separator : Separator) :
    openAfter inside separator.spelling = inside :=
  openAfter_of_not_mem (quote_not_mem_spelling separator) inside

/-! ## What cutting gives -/

/-- The slashes of a text stand in quotes. -/
def SlashesQuoted (text : List Char) : Prop :=
  ∀ before after, text = before ++ '/' :: after → openAfter false before = true

theorem slashesQuoted_nil : SlashesQuoted [] := fun before after h ↦ by
  simp at h

theorem SlashesQuoted.concat {c : Char} (h : SlashesQuoted done.reverse)
    (hdone : openAfter false done.reverse = inside) (hc : c = '/' → inside = true) :
    SlashesQuoted (c :: done).reverse := by
  intro before after heq
  rw [List.reverse_cons] at heq
  rcases after.eq_nil_or_concat with rfl | ⟨after, d, rfl⟩
  · obtain ⟨rfl, hslash⟩ := List.append_inj' heq rfl
    exact hdone.trans (hc (by simpa using hslash))
  · rw [List.concat_eq_append, ← List.cons_append, ← List.append_assoc] at heq
    exact h before after (List.append_inj' heq rfl).1

theorem slashesQuoted_of_mem_cut (hdone : openAfter false done.reverse = inside)
    (h : SlashesQuoted done.reverse) (hp : p ∈ cut separator inside done s) :
    SlashesQuoted p.text := by
  induction inside, s using cut_induction generalizing separator done with
  | nil inside =>
    obtain rfl := List.mem_singleton.mp hp
    exact h
  | quote inside s ih =>
    rw [cut_quote] at hp
    exact ih (openAfter_reverse_cons hdone '"') (h.concat hdone nofun) hp
  | literal c s hc ih =>
    rw [cut_literal hc] at hp
    exact ih ((openAfter_reverse_cons hdone c).trans (openAfter_cons hc _ _))
      (h.concat hdone fun _ ↦ rfl) hp
  | letter c s hquote hslash ih =>
    rw [cut_letter hquote hslash] at hp
    exact ih ((openAfter_reverse_cons hdone c).trans (openAfter_cons hquote _ _))
      (h.concat hdone fun hc ↦ absurd hc hslash) hp
  | direct s ih =>
    rw [cut_direct] at hp
    rcases List.mem_cons.mp hp with rfl | hp
    · exact h
    · exact @ih _ [] rfl slashesQuoted_nil hp
  | descend s hs ih =>
    rw [cut_descend hs] at hp
    rcases List.mem_cons.mp hp with rfl | hp
    · exact h
    · exact @ih _ [] rfl slashesQuoted_nil hp

/-- What a piece is like that another one follows: it leaves no quote open, and it is not the empty
text between two slashes. -/
structure Followed (p : Piece) : Prop where
  closed : openAfter false p.text = false
  filled : p.separator = .descend → p.text ≠ []

theorem followed_of_mem_cut (hdone : openAfter false done.reverse = inside)
    (h : separator = .descend → done = [] → s.head? ≠ some '/')
    (hp : p ∈ (cut separator inside done s).dropLast) : Followed p := by
  induction inside, s using cut_induction generalizing separator done with
  | nil inside =>
    rw [cut_nil] at hp
    cases hp
  | quote inside s ih =>
    rw [cut_quote] at hp
    exact ih (openAfter_reverse_cons hdone '"') (fun _ hnil ↦ absurd hnil (List.cons_ne_nil _ _)) hp
  | literal c s hc ih =>
    rw [cut_literal hc] at hp
    exact ih ((openAfter_reverse_cons hdone c).trans (openAfter_cons hc _ _))
      (fun _ hnil ↦ absurd hnil (List.cons_ne_nil _ _)) hp
  | letter c s hquote hslash ih =>
    rw [cut_letter hquote hslash] at hp
    exact ih ((openAfter_reverse_cons hdone c).trans (openAfter_cons hquote _ _))
      (fun _ hnil ↦ absurd hnil (List.cons_ne_nil _ _)) hp
  | direct s ih =>
    rw [cut_direct, List.dropLast_cons_of_ne_nil (cut_ne_nil _ _ _ _)] at hp
    rcases List.mem_cons.mp hp with rfl | hp
    · exact ⟨hdone, fun hdescend hnil ↦ h hdescend (List.reverse_eq_nil_iff.mp hnil) rfl⟩
    · exact @ih .direct [] rfl nofun hp
  | descend s hs ih =>
    rw [cut_descend hs, List.dropLast_cons_of_ne_nil (cut_ne_nil _ _ _ _)] at hp
    rcases List.mem_cons.mp hp with rfl | hp
    · exact ⟨hdone, fun hdescend hnil ↦ h hdescend (List.reverse_eq_nil_iff.mp hnil) rfl⟩
    · exact @ih .descend [] rfl (fun _ _ ↦ hs) hp

private theorem openAfter_spelling_of_followed (h : ∀ p ∈ pieces, Followed p) :
    openAfter false (spelling pieces) = false := by
  induction pieces with
  | nil => rfl
  | cons p pieces ih =>
    calc openAfter false (spelling (p :: pieces))
        = openAfter (openAfter (openAfter false p.separator.spelling) p.text)
            (spelling pieces) := by
          rw [spelling, List.flatMap_cons, openAfter_append, openAfter_append, spelling]
      _ = openAfter false (spelling pieces) := by
          rw [openAfter_spelling, (h p List.mem_cons_self).closed]
      _ = false := ih fun q hq ↦ h q (List.mem_cons_of_mem p hq)

/-- A piece of a query has its slashes in quotes, and what is in front of it leaves none open. -/
theorem quoted_of_split_eq {query : String} {init more : List Piece}
    (h : split query = init ++ p :: more) :
    openAfter false (spelling init) = false ∧ SlashesQuoted p.text ∧ (more ≠ [] → Followed p) := by
  have hfollowed : ∀ q ∈ (split query).dropLast, Followed q := fun q hq ↦
    @followed_of_mem_cut .start false [] query.toList q rfl (fun hstart ↦ by cases hstart) hq
  have hslashes : ∀ q ∈ split query, SlashesQuoted q.text := fun q hq ↦
    @slashesQuoted_of_mem_cut .start false [] query.toList q rfl slashesQuoted_nil hq
  rw [h] at hfollowed hslashes
  refine ⟨openAfter_spelling_of_followed fun q hq ↦ hfollowed q ?_,
    hslashes p (List.mem_append_right _ List.mem_cons_self), fun hmore ↦ hfollowed p ?_⟩
  · rw [List.dropLast_append_cons]
    exact List.mem_append_left _ hq
  · rw [List.dropLast_append_cons, List.dropLast_cons_of_ne_nil hmore]
    exact List.mem_append_right _ List.mem_cons_self

theorem exists_split (query : String) :
    ∃ text more, split query = ⟨.start, text⟩ :: more ∧ ∀ p ∈ more, p.separator ≠ .start := by
  obtain ⟨text, more, hcut⟩ := exists_cut false query.toList
  refine ⟨text, more, hcut .start [], fun p hp ↦ ?_⟩
  -- the other pieces are the same whatever is in front of the first one
  have hmem : p ∈ cut .direct false [] query.toList := by
    rw [hcut]
    exact List.mem_cons_of_mem _ hp
  refine (separator_of_mem_cut hmem).elim (fun hdirect ↦ ?_) id
  rw [hdirect]
  nofun

private theorem exists_of_map_pair_eq {init : List (List Char × List Char)}
    {p : List Char × List Char}
    (h : pieces.map pair = init ++ p :: rest) :
    ∃ before piece after, pieces = before ++ piece :: after ∧ before.map pair = init ∧
      piece.pair = p ∧ after.map pair = rest := by
  obtain ⟨before, behind, rfl, hbefore, hbehind⟩ := List.map_eq_append_iff.mp h
  obtain ⟨piece, after, rfl, hpiece, hafter⟩ := List.map_eq_cons_iff.mp hbehind
  exact ⟨before, piece, after, rfl, hbefore, hpiece, hafter⟩

private theorem unquotedCutting_split (query : String) :
    UnquotedCutting query.toList ((split query).map pair) where
  written_eq := by rw [written_map_pair, spelling_split]
  separators := by
    obtain ⟨text, more, hsplit, hmore⟩ := exists_split query
    refine ⟨(text, []), more.map pair, by rw [hsplit]; rfl, rfl, fun q hq ↦ ?_⟩
    obtain ⟨piece, hpiece, rfl⟩ := List.mem_map.mp hq
    exact spelling_of_ne_start (hmore piece hpiece)
  slashes_quoted := by
    intro init q rest h before after hq
    obtain ⟨init, piece, more, hsplit, rfl, rfl, rfl⟩ := exists_of_map_pair_eq h
    obtain ⟨hclosed, hslashes, -⟩ := quoted_of_split_eq hsplit
    rw [← openAfter_eq_false_iff, written_map_pair, openAfter_append, openAfter_append, hclosed,
      pair, openAfter_spelling, hslashes before after hq]
    exact Bool.noConfusion
  slashes_paired := by
    intro init q rest h hslash hempty
    obtain ⟨init, piece, more, hsplit, rfl, rfl, rfl⟩ := exists_of_map_pair_eq h
    by_contra hmore
    obtain ⟨-, -, hfollowed⟩ := quoted_of_split_eq hsplit
    refine (hfollowed fun hnil ↦ hmore (hnil ▸ rfl)).filled ?_ hempty
    exact eq_descend_of_spelling hslash
  separators_unquoted := by
    intro init q rest h
    obtain ⟨init, piece, more, hsplit, rfl, -, -⟩ := exists_of_map_pair_eq h
    rw [← openAfter_eq_false_iff, written_map_pair]
    exact (quoted_of_split_eq hsplit).1

/-! ## What is described is cut -/

/-- Where a text ends whose slashes are quoted and that leaves no quote open, no slash stands. -/
theorem SlashesQuoted.getLast?_ne (h : SlashesQuoted s) (hclosed : openAfter false s = false) :
    s.getLast? ≠ some '/' := by
  intro hlast
  obtain ⟨init, rfl⟩ := List.getLast?_eq_some_iff.mp hlast
  rw [openAfter_append, h init [] rfl] at hclosed
  exact absurd hclosed (by decide)

theorem SlashesQuoted.cut_eq (h : SlashesQuoted s) :
    cut separator false [] s = [⟨separator, s⟩] :=
  cut_of_slashes_quoted h

theorem SlashesQuoted.head?_ne (h : SlashesQuoted s) : s.head? ≠ some '/' := by
  intro hhead
  obtain ⟨rest, rfl⟩ := List.head?_eq_some_iff.mp hhead
  exact absurd (h [] rest rfl) Bool.false_ne_true

theorem SlashesQuoted.cut_append_spelling {next : Separator} (h : SlashesQuoted s)
    (hclosed : openAfter false s = false) (hnext : next ≠ .start)
    (ht : next = .descend → t.head? ≠ some '/') :
    cut separator false [] (s ++ (next.spelling ++ t)) =
      ⟨separator, s⟩ :: cut next false [] t := by
  have hlast := h.getLast?_ne hclosed
  cases next with
  | start => exact absurd rfl hnext
  | descend =>
    change cut separator false [] (s ++ '/' :: t) = _
    rw [cut_append hclosed hlast, h.cut_eq, cut_descend (ht rfl)]
    rfl
  | direct =>
    change cut separator false [] (s ++ '/' :: '/' :: t) = _
    rw [cut_append hclosed hlast, h.cut_eq, cut_direct]
    rfl

namespace UnquotedCutting

variable {init : List (List Char × List Char)}

theorem openAfter_written {p : List Char × List Char} (h : UnquotedCutting text pairs)
    (hpairs : pairs = init ++ p :: rest) : openAfter false (written init) = false :=
  openAfter_eq_false_iff.mpr (h.separators_unquoted init p rest hpairs)

private theorem slashesQuoted (h : UnquotedCutting text pairs)
    (hpairs : pairs = init ++ (t, separator.spelling) :: rest) : SlashesQuoted t := by
  intro before after ht
  have hodd := h.slashes_quoted init _ rest hpairs before after ht
  rw [← openAfter_eq_false_iff, openAfter_append, openAfter_append, h.openAfter_written hpairs,
    openAfter_spelling] at hodd
  simpa using hodd

private theorem separators_behind {p : List Char × List Char} (h : UnquotedCutting text pairs)
    (hpairs : pairs = init ++ p :: rest) : ∀ q ∈ rest, q.2 = ['/'] ∨ q.2 = ['/', '/'] := by
  obtain ⟨first, more, hfirst, -, hmore⟩ := h.separators
  intro q hq
  rw [hpairs] at hfirst
  rcases init with _ | ⟨a, init⟩
  · obtain ⟨-, rfl⟩ := List.cons.inj hfirst
    exact hmore q hq
  · obtain ⟨-, rfl⟩ := List.cons.inj hfirst
    exact hmore q (List.mem_append_right _ (List.mem_cons_of_mem p hq))

/-- **What is described is cut**: behind any of its separators a list that has the properties is
what cutting gives there. -/
theorem cut_eq (h : UnquotedCutting text pairs)
    (hpairs : pairs = init ++ (t, separator.spelling) :: rest) :
    (cut separator false [] (t ++ written rest)).map pair = (t, separator.spelling) :: rest := by
  induction rest generalizing init t separator with
  | nil =>
    rw [written, List.flatMap_nil, List.append_nil, (h.slashesQuoted hpairs).cut_eq]
    rfl
  | cons q rest ih =>
    obtain ⟨u, spelled⟩ := q
    obtain ⟨next, hnext, rfl⟩ : ∃ next : Separator, next ≠ .start ∧ next.spelling = spelled :=
      exists_spelling_eq (h.separators_behind hpairs _ List.mem_cons_self)
    have hbehind : pairs = (init ++ [(t, separator.spelling)]) ++ (u, next.spelling) :: rest := by
      rw [hpairs, List.append_assoc, List.singleton_append]
    have hu : SlashesQuoted u := h.slashesQuoted hbehind
    have hclosed : openAfter false t = false := by
      have hopen := h.openAfter_written hbehind
      rwa [written_append, openAfter_append, h.openAfter_written hpairs, written_cons,
        openAfter_append, openAfter_append, openAfter_spelling] at hopen
    -- behind one slash nothing but the end of the text is empty, so no other slash comes next
    have hhead : next = .descend → (u ++ written rest).head? ≠ some '/' := by
      rintro rfl
      rcases u with _ | ⟨c, u⟩
      · obtain rfl := h.slashes_paired _ _ _ hbehind rfl rfl
        nofun
      · exact hu.head?_ne
    rw [written_cons, List.append_assoc,
      (h.slashesQuoted hpairs).cut_append_spelling hclosed hnext hhead, List.map_cons, ih hbehind]
    rfl

end UnquotedCutting

/-- **A query has exactly one list of pieces** that are written like it, whose separators are
slashes outside quotes, one or two at a time, and whose texts have their slashes in quotes. -/
theorem unquotedCutting_iff (query : String) (pairs : List (List Char × List Char)) :
    UnquotedCutting query.toList pairs ↔ pairs = (split query).map pair := by
  constructor
  · intro h
    obtain ⟨⟨t, _⟩, rest, rfl, rfl, -⟩ := h.separators
    have hcut : (cut .start false [] (t ++ written rest)).map pair = (t, []) :: rest :=
      h.cut_eq (List.nil_append _).symm
    have hwritten : t ++ written rest = query.toList := h.written_eq
    rw [← hcut, hwritten, split]
  · rintro rfl
    exact unquotedCutting_split query

/-- A quoted slash can be cut at as well, if separators may stand in quotes. -/
theorem exists_cutting_in_quotes :
    Cutting "\"a/b\"".toList [(['"', 'a'], []), (['b', '"'], ['/'])] ∧
      [(['"', 'a'], []), (['b', '"'], ['/'])] ≠ (split "\"a/b\"").map pair := by
  have hnone : ∀ p ∈ [(['"', 'a'], []), (['b', '"'], ['/'])], p.1 ≠ [] ∧ '/' ∉ p.1 := by decide
  refine ⟨⟨by decide, ⟨_, _, rfl, rfl, by simp⟩, ?_, ?_⟩, by decide⟩
  · intro init p rest h before after hp
    have hslash : '/' ∈ p.1 := by simp [hp]
    exact absurd hslash (hnone p (by simp [h])).2
  · intro init p rest h _ hempty
    exact absurd hempty (hnone p (by simp [h])).1

end Piece

end SceneSearch
