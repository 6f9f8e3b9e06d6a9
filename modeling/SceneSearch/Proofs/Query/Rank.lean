import SceneSearch.Proofs.Query.Suffix

/-!
# A rank behind a query

A number in base ten reads as itself, so two dashes and a number behind a query are its index, as
long as there are not too many digits. Nothing else of the plan changes: the number stands in the
last piece, and the last segment takes its pick from the modifiers of the whole query, among which
an index is not looked at. So `parseQuery_append_rank` has the segments that the query has by
itself, and a pick at the end.
-/

namespace SceneSearch

/-! ## Numbers in base ten -/

theorem toList_toString_nat (n : Nat) : (toString n).toList = Nat.toDigits 10 n := by
  rw [Nat.toString_eq_ofList_toDigits, String.toList_ofList]

private theorem digitValue?_digitChar {d : Nat} (h : d < 10) : digitValue? d.digitChar = some d :=
    by
  have hall : ∀ d : Fin 10, digitValue? (Nat.digitChar d) = some d.val := by decide
  exact hall ⟨d, h⟩

/-- What holds of the numbers below ten, and of a number if it holds of it without its last digit,
holds of every number. -/
@[elab_as_elim]
theorem toDigits_induction {motive : Nat → Prop} (digit : ∀ n, n < 10 → motive n)
    (number : ∀ n, 10 ≤ n → motive (n / 10) → motive n) (n : Nat) : motive n := by
  induction n using Nat.strongRecOn with
  | ind n ih =>
    rcases Nat.lt_or_ge n 10 with hn | hn
    · exact digit n hn
    · exact number n hn (ih (n / 10) (by omega))

private theorem decimalValue_toDigits (n : Nat) : decimalValue (Nat.toDigits 10 n) = n := by
  induction n using toDigits_induction with
  | digit n hn =>
    rw [Nat.toDigits_of_lt_base hn, ← List.nil_append [_], decimalValue_append,
      digitValue?_digitChar hn, decimalValue_nil]
    simp
  | number n hn ih =>
    rw [Nat.toDigits_of_base_le (by decide) hn, decimalValue_append, ih,
      digitValue?_digitChar (Nat.mod_lt n (by decide)), Option.getD_some]
    exact Nat.div_add_mod n 10

private theorem exists_digitChar {n : Nat} {c : Char} (h : c ∈ Nat.toDigits 10 n) :
    ∃ d : Fin 10, c = Nat.digitChar d := by
  induction n using toDigits_induction with
  | digit n hn =>
    rw [Nat.toDigits_of_lt_base hn, List.mem_singleton] at h
    exact ⟨⟨n, hn⟩, h⟩
  | number n hn ih =>
    rw [Nat.toDigits_of_base_le (by decide) hn] at h
    rcases List.mem_append.mp h with h | h
    · exact ih h
    · exact ⟨⟨n % 10, Nat.mod_lt n (by decide)⟩, List.mem_singleton.mp h⟩

/-- What is seen of the ten digits is seen of the characters of a number. -/
theorem of_mem_toString {P : Char → Prop} (h : ∀ d : Fin 10, P (Nat.digitChar d)) {n : Nat} :
    ∀ c ∈ (toString n).toList, P c := by
  rw [toList_toString_nat]
  intro c hc
  obtain ⟨d, rfl⟩ := exists_digitChar hc
  exact h d

namespace Modifier

/-! ## Words of digits -/

variable {digits word : List Char}

theorem takeAlong_word (h : ∀ c ∈ word, c ≠ '"' ∧ isBlank c = false) (done : List Char) :
    takeAlong false done word = ending (word.reverse ++ done) := by
  induction word generalizing done with
  | nil => rfl
  | cons c rest ih =>
    obtain ⟨hquote, hblank⟩ := h c List.mem_cons_self
    rw [takeAlong_letter hquote (by simp [hblank]), ih fun d hd ↦ h d (List.mem_cons_of_mem c hd)]
    simp

/-- The modifier of a number. -/
def ofNumber (each : Bool) (n : Nat) : Modifier := if each then .indexEach n else .index n

private theorem ending_digits (each : Bool) (hne : digits ≠ [])
    (h : ∀ c ∈ digits, isDigit c = true) :
    ending ('-' :: '-' :: (digits ++ eachMark each)).reverse =
      (naturalOfDigits digits).map fun n ↦ ⟨[], [ofNumber each n]⟩ := by
  rw [ending, List.reverse_reverse, wording?_digits each hne h]
  dsimp only
  rw [ofWording]
  cases naturalOfDigits digits <;> rfl

theorem Spells.of_word {suffix : String} {w : Modifier} (hsuffix : suffix.toList = ' ' :: word)
    (hword : ∀ c ∈ word, c ≠ '"' ∧ c ≠ '/' ∧ isBlank c = false)
    (hending : ending word.reverse = .ok ⟨[], [w]⟩) : Spells suffix w where
  starts := by
    rw [hsuffix]
    rfl
  quote := by
    rw [hsuffix, List.mem_cons, not_or]
    exact ⟨by decide, fun h ↦ (hword _ h).1 rfl⟩
  slash := by
    rw [hsuffix, List.mem_cons, not_or]
    exact ⟨by decide, fun h ↦ (hword _ h).2.1 rfl⟩
  taken := by
    rw [hsuffix, takeAlong_blank (by decide),
      takeAlong_word fun c hc ↦ ⟨(hword c hc).1, (hword c hc).2.2⟩, List.append_nil, hending]
    rfl

/-- The word of a number: two dashes, its digits, and the letter if there is one. -/
def numberWord (each : Bool) (k : Nat) : List Char :=
  '-' :: '-' :: ((toString k).toList ++ eachMark each)

theorem plain_of_mem_numberWord (each : Bool) (k : Nat) :
    ∀ c ∈ numberWord each k, c ≠ '"' ∧ c ≠ '/' ∧ isBlank c = false := by
  have hdash : '-' ≠ '"' ∧ '-' ≠ '/' ∧ isBlank '-' = false := by decide
  have hletter : 'e' ≠ '"' ∧ 'e' ≠ '/' ∧ isBlank 'e' = false := by decide
  have hmark : ∀ c ∈ eachMark each, c ≠ '"' ∧ c ≠ '/' ∧ isBlank c = false := by
    cases each with
    | false => exact nofun
    | true => exact List.forall_mem_singleton.mpr hletter
  refine List.forall_mem_cons.mpr ⟨hdash, List.forall_mem_cons.mpr ⟨hdash, ?_⟩⟩
  refine List.forall_mem_append.mpr ⟨?_, hmark⟩
  exact of_mem_toString (P := fun c ↦ c ≠ '"' ∧ c ≠ '/' ∧ isBlank c = false) (by decide)

theorem ending_numberWord (each : Bool) (k : Nat) :
    ending (numberWord each k).reverse =
      (naturalOfDigits (toString k).toList).map fun n ↦ ⟨[], [ofNumber each n]⟩ := by
  refine ending_digits each ?_ (of_mem_toString (P := fun c ↦ isDigit c = true) (by decide))
  rw [toList_toString_nat]
  exact Nat.toDigits_ne_nil

private theorem naturalOfDigits_toString {k : Nat} (h : (toString k).length ≤ digitLimit) :
    naturalOfDigits (toString k).toList = .ok k := by
  rw [naturalOfDigits_eq_ok (by rwa [String.length_toList]), toList_toString_nat,
    decimalValue_toDigits]

/-- Two dashes and a number are an index, and a pick in each scope with an `e` behind it. -/
theorem spells_number {suffix : String} {each : Bool} {k : Nat}
    (hsuffix : suffix.toList = ' ' :: numberWord each k)
    (h : (toString k).length ≤ digitLimit) : Spells suffix (ofNumber each k) := by
  refine .of_word hsuffix (plain_of_mem_numberWord each k) ?_
  rw [ending_numberWord, naturalOfDigits_toString h]
  rfl

theorem toList_index (k : Nat) : (" --" ++ toString k).toList = ' ' :: numberWord false k := by
  rw [String.toList_append, numberWord, eachMark, if_neg Bool.false_ne_true, List.append_nil]
  rfl

theorem spells_index {k : Nat} (h : (toString k).length ≤ digitLimit) :
    Spells (" --" ++ toString k) (.index k) :=
  @spells_number _ false k (toList_index k) h

end Modifier

namespace QueryPlan

open Modifier

variable {init rest : List CleanPiece} {p : CleanPiece} {query : String} {plan : QueryPlan}
  {k : Nat}

/-! ## The plan with a rank -/

theorem segmentsOf_index (m : QueryModifiers) (index : Option Nat) (isFirst : Bool)
    (placed : List PlacedPiece) :
    segmentsOf { m with index } isFirst placed = segmentsOf m isFirst placed := by
  induction placed generalizing isFirst with
  | nil => rfl
  | cons p rest ih =>
    rw [segmentsOf, segmentsOf, ih]
    rfl

/-- A modifier more in a piece changes no segment if it does not change what the piece picks. -/
theorem segmentsOf_arrange_marked_of_pick {m : QueryModifiers} {w : Modifier}
    (hpick : ∀ isFinal, (rest = [] → isFinal = true) →
      pickFor m (p.marked w) isFinal = pickFor m p isFinal)
    (carried isFirst : Bool) (init : List CleanPiece) :
    segmentsOf m isFirst (arrange carried (init ++ p.marked w :: rest)) =
      segmentsOf m isFirst (arrange carried (init ++ p :: rest)) := by
  have hsegment : ∀ direct implicit isFirst isFinal, (rest = [] → isFinal = true) →
      segmentOf m ⟨p.marked w, direct, implicit⟩ isFirst isFinal =
        segmentOf m ⟨p, direct, implicit⟩ isFirst isFinal := by
    intro direct implicit isFirst isFinal hfinal
    rw [segmentOf, segmentOf, hpick isFinal hfinal]
    rfl
  induction init generalizing carried isFirst with
  | nil =>
    rw [List.nil_append, List.nil_append, arrange, arrange]
    change segmentsOf m isFirst (if !p.text.isEmpty then _
      else if rest.isEmpty && p.separator != .start then _ else _) = _
    split
    · exact congrArg (· :: _) (hsegment _ _ _ _ (by rintro rfl; rfl))
    · split
      · exact congrArg (· :: _) (hsegment _ _ _ _ fun _ ↦ rfl)
      · rfl
  | cons q init ih =>
    have hempty : (init ++ p.marked w :: rest).isEmpty = (init ++ p :: rest).isEmpty := by
      cases init <;> rfl
    rw [List.cons_append, List.cons_append, arrange, arrange, hempty]
    split
    · rw [segmentsOf, segmentsOf, ← isEmpty_segmentsOf m false, ih, isEmpty_segmentsOf]
    · split
      · rfl
      · exact ih ..

theorem segmentsOf_arrange_marked (m : QueryModifiers) (w : Modifier) (carried isFirst : Bool)
    (init : List CleanPiece) (p : CleanPiece) :
    segmentsOf m isFirst (arrange carried (init ++ [p.marked w])) =
      segmentsOf m isFirst (arrange carried (init ++ [p])) := by
  refine segmentsOf_arrange_marked_of_pick (fun isFinal hfinal ↦ ?_) carried isFirst init
  rw [hfinal rfl]
  rfl

private theorem modifiersOf_marked_index (init : List CleanPiece) (p : CleanPiece) (k : Nat) :
    modifiersOf (init ++ [p.marked (.index k)]) =
      { modifiersOf (init ++ [p]) with index := some k } := by
  simp [modifiersOf, CleanPiece.marked, lastIndex?, lastIndexEach?]

/-- The plan that chooses the result of a rank at its end, if it looks for anything. -/
def withRank (plan : QueryPlan) (raw : String) (k : Nat) : QueryPlan :=
  { plan with
    raw
    modifiers := { plan.modifiers with index := some k }
    finalPick := if plan.isEmpty then none else some ⟨.overall, k⟩ }

/-- **A query with a rank behind it** has the plan of the query and chooses that rank at the end. -/
theorem parseQuery_append_rank (hplan : parseQuery query = .ok plan)
    (hclosed : Even (query.toList.count '"')) (hfirst : plan.modifiers.firstOverall = false)
    (hdigits : (toString k).length ≤ digitLimit) :
    parseQuery (query ++ (" --" ++ toString k)) =
      .ok (plan.withRank (query ++ (" --" ++ toString k)) k) := by
  obtain ⟨pieces, hpieces, rfl⟩ := exists_ofPieces hplan
  obtain ⟨init, p, rfl, hmarked⟩ := cleanPieces_append_suffix (spells_index hdigits) hpieces hclosed
  obtain ⟨childSearch, front, hleading⟩ := exists_leading_concat init
  rw [parseQuery_eq, hmarked]
  refine congrArg Except.ok ?_
  have hfirst' : (modifiersOf (init ++ [p])).firstOverall = false := by
    rw [ofPieces_eq] at hfirst
    exact hfirst
  rw [ofPieces_eq, ofPieces_eq, hleading, hleading, modifiersOf_marked_index, assembled, assembled,
    withRank, segmentsOf_index, segmentsOf_arrange_marked, QueryPlan.isEmpty, isEmpty_segmentsOf]
  dsimp only
  rw [hfirst', ← isEmpty_segmentsOf (modifiersOf (init ++ [p])) true, segmentsOf_arrange_marked,
    isEmpty_segmentsOf]
  rfl

end QueryPlan

end SceneSearch
