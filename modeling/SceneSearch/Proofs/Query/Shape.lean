import Mathlib.Data.List.Basic
import Mathlib.Data.List.Forall2
import Mathlib.Data.List.Induction
import SceneSearch.Proofs.Query.Canonical
import SceneSearch.Proofs.Query.Continuation

/-!
# The shape of a plan

What a plan says is said by the pieces of its query: which of them become segments, what each
segment reads off its own piece, and what it takes from the pieces in front of it or from the query
as a whole. `Shaped` collects this as a list of rules that mention neither the walk over the pieces
nor what it carries along, and `shaped_of_parseQuery` says that every plan keeps them.

The walk drops empty pieces and carries their double slashes to the next piece that it keeps. Seen
from that piece, the slashes stand somewhere behind the piece that was kept last; `FollowsDirect`
says so by positions, and `forall₂_arrange` is the induction on the walk.
-/

namespace SceneSearch

/-! ## The last number -/

namespace Modifier

/-- The last of the modifiers that give a number in the one way or in the other. -/
def LastNumber (number : Nat → Modifier) (modifiers : List Modifier) (n : Nat) : Prop :=
  ∃ before after, modifiers = before ++ number n :: after ∧ ∀ k, number k ∉ after

variable {number : Nat → Modifier} {modifiers : List Modifier} {w : Modifier} {n : Nat}

theorem not_lastNumber_nil : ¬LastNumber number [] n := by
  rintro ⟨before, after, h, -⟩
  simp at h

theorem LastNumber.mem (h : LastNumber number modifiers n) : number n ∈ modifiers := by
  obtain ⟨before, after, rfl, -⟩ := h
  simp

theorem lastNumber_concat :
    LastNumber number (modifiers ++ [w]) n ↔
      w = number n ∨ (∀ k, number k ≠ w) ∧ LastNumber number modifiers n := by
  constructor
  · rintro ⟨before, after, h, hafter⟩
    rcases List.eq_nil_or_concat after with rfl | ⟨rest, v, rfl⟩
    · exact Or.inl (List.singleton_inj.mp (List.append_inj_right' h rfl))
    · rw [List.concat_eq_append] at h hafter
      rw [← List.cons_append, ← List.append_assoc] at h
      obtain rfl : w = v := List.singleton_inj.mp (List.append_inj_right' h rfl)
      refine Or.inr ⟨fun k hk ↦ hafter k (by simp [hk]), before, rest,
        List.append_inj_left' h rfl, fun k hk ↦ hafter k (List.mem_append_left _ hk)⟩
  · rintro (rfl | ⟨hw, before, after, rfl, hafter⟩)
    · exact ⟨modifiers, [], rfl, fun _ ↦ List.not_mem_nil⟩
    · refine ⟨before, after ++ [w], by simp, fun k hk ↦ ?_⟩
      rcases List.mem_append.mp hk with hk | hk
      · exact hafter k hk
      · exact hw k (List.mem_singleton.mp hk)

theorem lastIndex?_eq_some : lastIndex? modifiers = some n ↔ LastNumber .index modifiers n := by
  induction modifiers using List.reverseRecOn with
  | nil => simp [lastIndex?, not_lastNumber_nil]
  | append_singleton rest w ih =>
    rw [lastNumber_concat, ← ih, lastIndex?, List.foldl_concat]
    cases w <;> simp [lastIndex?]

theorem lastIndexEach?_eq_some :
    lastIndexEach? modifiers = some n ↔ LastNumber .indexEach modifiers n := by
  induction modifiers using List.reverseRecOn with
  | nil => simp [lastIndexEach?, not_lastNumber_nil]
  | append_singleton rest w ih =>
    rw [lastNumber_concat, ← ih, lastIndexEach?, List.foldl_concat]
    cases w <;> simp [lastIndexEach?]

end Modifier

namespace QueryPlan

open Modifier

variable {pieces rest : List CleanPiece} {p last : CleanPiece} {query : String} {plan : QueryPlan}
  {i : Nat}

/-! ## The pieces that become segments -/

/-- The piece at a position becomes a segment if there is something in it, or if it is the last one
and a slash is in front of it. -/
def isPlaced (pieces : List CleanPiece) (i : Nat) : Bool :=
  pieces[i]?.any fun p ↦ !p.text.isEmpty || i + 1 == pieces.length && p.separator != .start

/-- The positions of the pieces that become segments. -/
def places (pieces : List CleanPiece) : List Nat :=
  (List.range pieces.length).filter (isPlaced pieces)

theorem places_cons (p : CleanPiece) (rest : List CleanPiece) :
    places (p :: rest) =
      if !p.text.isEmpty || rest.isEmpty && p.separator != .start then
        0 :: (places rest).map Nat.succ
      else (places rest).map Nat.succ := by
  have hrest : isPlaced (p :: rest) ∘ Nat.succ = isPlaced rest := by
    funext i
    simp [isPlaced]
  have hfirst : isPlaced (p :: rest) 0 =
      (!p.text.isEmpty || rest.isEmpty && p.separator != .start) := by
    cases rest <;> simp [isPlaced]
  rw [places, List.length_cons, List.range_succ_eq_map, List.filter_cons, List.filter_map, hrest,
    hfirst, places]

/-- A double slash stands in front of a piece, or of one before it that is not before a piece that
became a segment. -/
def FollowsDirect (pieces : List CleanPiece) (i : Nat) : Prop :=
  ∃ j p, j ≤ i ∧ pieces[j]? = some p ∧ p.separator = .direct ∧ ∀ k ∈ places pieces, k < i → k < j

private theorem followsDirect_zero :
    FollowsDirect (p :: rest) 0 ↔ p.separator = .direct := by
  constructor
  · rintro ⟨j, q, hj, hq, hdirect, -⟩
    obtain rfl := Nat.le_zero.mp hj
    obtain rfl : p = q := Option.some.inj hq
    exact hdirect
  · intro hdirect
    exact ⟨0, p, le_rfl, rfl, hdirect, fun k _ hk ↦ absurd hk (Nat.not_lt_zero k)⟩

/-- Behind a piece that becomes a segment what is in front of that does not matter. -/
theorem followsDirect_succ_of_placed (h : places (p :: rest) = 0 :: (places rest).map Nat.succ) :
    FollowsDirect (p :: rest) (i + 1) ↔ FollowsDirect rest i := by
  simp only [FollowsDirect, h, List.forall_mem_cons, List.forall_mem_map]
  constructor
  · rintro ⟨j, q, hj, hq, hdirect, hfirst, hbefore⟩
    obtain ⟨j, rfl⟩ := Nat.exists_eq_succ_of_ne_zero (hfirst i.succ_pos).ne'
    exact ⟨j, q, Nat.succ_le_succ_iff.mp hj, hq, hdirect, fun k hk hki ↦
      Nat.succ_lt_succ_iff.mp (hbefore k hk (Nat.succ_lt_succ hki))⟩
  · rintro ⟨j, q, hj, hq, hdirect, hbefore⟩
    exact ⟨j + 1, q, Nat.succ_le_succ hj, hq, hdirect, fun _ ↦ j.succ_pos, fun k hk hki ↦
      Nat.succ_lt_succ (hbefore k hk (Nat.succ_lt_succ_iff.mp hki))⟩

/-- A piece that is dropped leaves its double slash to the next one that becomes a segment. -/
theorem followsDirect_succ_of_dropped (h : places (p :: rest) = (places rest).map Nat.succ) :
    FollowsDirect (p :: rest) (i + 1) ↔
      FollowsDirect rest i ∨ p.separator = .direct ∧ ∀ k ∈ places rest, i ≤ k := by
  simp only [FollowsDirect, h, List.forall_mem_map]
  constructor
  · rintro ⟨_ | j, q, hj, hq, hdirect, hbefore⟩
    · obtain rfl : p = q := Option.some.inj hq
      exact Or.inr ⟨hdirect, fun k hk ↦ Nat.le_of_not_lt fun hki ↦
        Nat.not_lt_zero _ (hbefore k hk (Nat.succ_lt_succ hki))⟩
    · exact Or.inl ⟨j, q, Nat.succ_le_succ_iff.mp hj, hq, hdirect, fun k hk hki ↦
        Nat.succ_lt_succ_iff.mp (hbefore k hk (Nat.succ_lt_succ hki))⟩
  · rintro (⟨j, q, hj, hq, hdirect, hbefore⟩ | ⟨hdirect, hnone⟩)
    · exact ⟨j + 1, q, Nat.succ_le_succ hj, hq, hdirect, fun k hk hki ↦
        Nat.succ_lt_succ (hbefore k hk (Nat.succ_lt_succ_iff.mp hki))⟩
    · exact ⟨0, p, Nat.zero_le _, rfl, hdirect, fun k hk hki ↦
        absurd (Nat.succ_lt_succ_iff.mp hki) (Nat.not_lt.mpr (hnone k hk))⟩

/-- What becomes of the piece at a position, where a double slash may be carried along to the first
piece that becomes a segment. -/
structure PlacedAt (carried : Bool) (pieces : List CleanPiece) (i : Nat) (q : PlacedPiece) :
    Prop where
  /-- It is that piece. -/
  piece : pieces[i]? = some q.piece
  /-- If there is nothing in it, it stands for a slash. -/
  implicit : q.implicit = q.piece.text.isEmpty
  /-- It is matched among children behind a double slash. -/
  direct : q.direct = true ↔
    FollowsDirect pieces i ∨ carried = true ∧ ∀ k ∈ places pieces, i ≤ k

/-- The walk over the pieces comes to the positions of those that become segments, one after the
other. -/
theorem forall₂_arrange (carried : Bool) (pieces : List CleanPiece) :
    List.Forall₂ (PlacedAt carried pieces) (places pieces) (arrange carried pieces) := by
  induction pieces generalizing carried with
  | nil => exact .nil
  | cons p rest ih =>
    have hfirst : ∀ implicit, implicit = p.text.isEmpty →
        PlacedAt carried (p :: rest) 0 ⟨p, carried || p.separator == .direct, implicit⟩ :=
      fun implicit himplicit ↦ ⟨rfl, himplicit, by simp [followsDirect_zero, or_comm]⟩
    rw [arrange]
    by_cases hempty : p.text.isEmpty = true
    · by_cases hlast : (rest.isEmpty && p.separator != .start) = true
      · obtain rfl : rest = [] := List.isEmpty_iff.mp (Bool.and_eq_true_iff.mp hlast).1
        have hplaces : places [p] = [0] := by
          rw [places_cons, hempty, hlast]
          rfl
        rw [hplaces, hempty, hlast]
        exact .cons (hfirst true hempty.symm) .nil
      · rw [Bool.not_eq_true] at hlast
        have hplaces : places (p :: rest) = (places rest).map Nat.succ := by
          rw [places_cons, hempty, hlast]
          rfl
        rw [hplaces, hempty, hlast]
        refine List.forall₂_map_left_iff.mpr ((ih _).imp fun i q hq ↦ ⟨hq.piece, hq.implicit, ?_⟩)
        rw [hq.direct, followsDirect_succ_of_dropped hplaces, hplaces, List.forall_mem_map]
        simp only [Nat.succ_le_succ_iff, Bool.or_eq_true, beq_iff_eq]
        tauto
    · rw [Bool.not_eq_true] at hempty
      have hplaces : places (p :: rest) = 0 :: (places rest).map Nat.succ := by
        rw [places_cons, hempty]
        rfl
      rw [hplaces, hempty]
      refine .cons (hfirst false hempty.symm)
        (List.forall₂_map_left_iff.mpr ((ih _).imp fun i q hq ↦ ⟨hq.piece, hq.implicit, ?_⟩))
      rw [hq.direct, followsDirect_succ_of_placed hplaces, hplaces]
      simp

/-! ## Segments by their numbers -/

theorem getElem?_segmentsOf (m : QueryModifiers) (isFirst : Bool) (placed : List PlacedPiece)
    (k : Nat) :
    (segmentsOf m isFirst placed)[k]? =
      placed[k]?.map fun q ↦ segmentOf m q (isFirst && k == 0) (k + 1 == placed.length) := by
  induction placed generalizing isFirst k with
  | nil => rfl
  | cons q rest ih =>
    cases k with
    | zero => cases rest <;> simp [segmentsOf]
    | succ k =>
      rw [segmentsOf, List.getElem?_cons_succ, List.getElem?_cons_succ, ih]
      simp

private theorem length_segmentsOf (m : QueryModifiers) (isFirst : Bool)
    (placed : List PlacedPiece) :
    (segmentsOf m isFirst placed).length = placed.length := by
  induction placed generalizing isFirst with
  | nil => rfl
  | cons q rest ih => rw [segmentsOf, List.length_cons, List.length_cons, ih]

/-- A segment without a text of its own asks for any layer, like one that stands for a slash. -/
theorem segmentOf_symbol (m : QueryModifiers) {q : PlacedPiece} (isFirst isFinal : Bool)
    (h : q.implicit = q.piece.text.isEmpty) :
    (segmentOf m q isFirst isFinal).symbol = (splitSymbol q.piece.text).1 ∧
      (segmentOf m q isFirst isFinal).nameQuery = String.ofList (splitSymbol q.piece.text).2 := by
  rw [segmentOf, h]
  cases q.piece.text <;> exact ⟨rfl, rfl⟩

/-! ## The pieces of a query -/

/-- Of the pieces of a query the first one alone has no slash in front. -/
theorem exists_cleanPieces (h : cleanPieces query = .ok pieces) :
    ∃ first rest, pieces = first :: rest ∧ first.separator = .start ∧
      ∀ q ∈ rest, q.separator ≠ .start := by
  obtain ⟨text, more, hsplit, hmore⟩ := Piece.exists_split (String.ofList (trim query.toList))
  rw [cleanPieces, hsplit] at h
  have hseparators := map_separator_of_mapM h
  rcases pieces with _ | ⟨first, rest⟩
  · cases hseparators
  · obtain ⟨hfirst, hrest⟩ := List.cons.inj hseparators
    refine ⟨first, rest, rfl, hfirst, fun q hq ↦ ?_⟩
    have hmem : q.separator ∈ more.map Piece.separator := hrest ▸ List.mem_map_of_mem hq
    obtain ⟨piece, hpiece, hseparator⟩ := List.mem_map.mp hmem
    exact hseparator ▸ hmore piece hpiece

/-- The empty first piece of several would be dropped if it were not taken off before. -/
theorem arrange_leading {first : CleanPiece} (hfirst : first.separator = .start)
    (rest : List CleanPiece) :
    arrange false (leading (first :: rest)).2 = arrange false (first :: rest) := by
  rcases rest with _ | ⟨second, rest⟩
  · rfl
  · rw [leading]
    split
    · rename_i hempty
      conv_rhs => rw [arrange, hempty, hfirst]
      rfl
    · rfl

private theorem leading_childSearch (pieces : List CleanPiece) :
    (leading pieces).1 = true ↔
      1 < pieces.length ∧ ∃ first, pieces.head? = some first ∧ first.text = [] := by
  rcases pieces with _ | ⟨first, _ | ⟨second, rest⟩⟩
  · simp [leading]
  · simp [leading]
  · rw [leading]
    split <;> simp_all

/-- A piece of a query becomes a segment if there is something in it, or if it is the last one of
several. -/
theorem mem_places_iff {first : CleanPiece} (hfirst : first.separator = .start)
    (hrest : ∀ q ∈ rest, q.separator ≠ .start) :
    i ∈ places (first :: rest) ↔ ∃ p, (first :: rest)[i]? = some p ∧
      (p.text ≠ [] ∨ i + 1 = (first :: rest).length ∧ 1 < (first :: rest).length) := by
  have hseparator : ∀ p, (first :: rest)[i]? = some p → (p.separator = .start ↔ i = 0) := by
    intro p hp
    cases i with
    | zero =>
      obtain rfl : first = p := Option.some.inj hp
      exact iff_of_true hfirst rfl
    | succ i => exact iff_of_false (hrest p (List.mem_of_getElem? hp)) i.succ_ne_zero
  rw [places, List.mem_filter, List.mem_range, isPlaced, Option.any_eq_true]
  constructor
  · rintro ⟨-, p, hp, hplaced⟩
    refine ⟨p, hp, ?_⟩
    have hstart := hseparator p hp
    simp only [Bool.or_eq_true, Bool.and_eq_true, bne_iff_ne, beq_iff_eq, ne_eq, hstart,
      Bool.not_eq_true', List.isEmpty_eq_false_iff] at hplaced
    exact hplaced.imp_right (by omega)
  · rintro ⟨p, hp, hplaced⟩
    have hstart := hseparator p hp
    refine ⟨(List.getElem?_eq_some_iff.mp hp).1, p, hp, ?_⟩
    simp only [Bool.or_eq_true, Bool.and_eq_true, bne_iff_ne, beq_iff_eq, ne_eq, hstart,
      Bool.not_eq_true', List.isEmpty_eq_false_iff]
    exact hplaced.imp_right (by omega)

/-! ## Plans -/

/-- A modifier stands somewhere in a query. -/
def Given (pieces : List CleanPiece) (w : Modifier) : Prop := ∃ p ∈ pieces, w ∈ p.modifiers

/-- What segment number `k` says, where segments come from the pieces at these positions, its own
piece is `own`, at position `i`, and the query ends with the piece `last`. -/
structure SegmentShaped (pieces : List CleanPiece) (positions : List Nat) (last : CleanPiece)
    (k i : Nat) (own : CleanPiece) (segment : SegmentPlan) : Prop where
  /-- It stands for a slash if its piece is empty, -/
  implicit : segment.implicit = true ↔ own.text = []
  /-- and then asks for any layer of any name. -/
  unnamed : own.text = [] → segment.symbol = .any ∧ segment.nameQuery = ""
  /-- Otherwise its piece says what it asks for. -/
  named : own.text ≠ [] → segment.symbol = (splitSymbol own.text).1 ∧
    segment.nameQuery = String.ofList (splitSymbol own.text).2
  /-- It goes on among children if, behind the pieces of the segments before it and up to its own,
  there is a piece with a double slash. -/
  direct : segment.direct = true ↔
    ∃ j p, j ≤ i ∧ pieces[j]? = some p ∧ p.separator = .direct ∧ ∀ i' ∈ positions.take k, i' < j
  /-- The first segment is marked, -/
  isFirst : segment.isFirst = true ↔ k = 0
  /-- and the last one. -/
  isFinal : segment.isFinal = true ↔ k + 1 = positions.length
  /-- `--f` ends every segment at its first match, -/
  stopAtFirst : segment.stopAtFirst = true ↔ Given pieces .firstOverall
  /-- and takes all picks away. -/
  pick_first : Given pieces .firstOverall → segment.pick = none
  /-- A segment that is not the last one picks what its own piece says, in each scope rather than
  overall. -/
  pick_inner : ¬Given pieces .firstOverall → k + 1 ≠ positions.length → ∀ pick,
    segment.pick = some pick ↔
      (∃ n : Nat, LastNumber .indexEach own.modifiers n ∧ pick = ⟨.perScope, n⟩) ∨
      (¬∃ n, LastNumber .indexEach own.modifiers n) ∧
        ∃ n : Nat, LastNumber .index own.modifiers n ∧ pick = ⟨.overall, n⟩
  /-- The last one picks in each scope, what the last piece says or the first match. -/
  pick_final : ¬Given pieces .firstOverall → k + 1 = positions.length → ∀ pick,
    segment.pick = some pick ↔
      (∃ n : Nat, LastNumber .indexEach last.modifiers n ∧ pick = ⟨.perScope, n⟩) ∨
      (¬∃ n, LastNumber .indexEach last.modifiers n) ∧ Given pieces .firstEach ∧
        pick = ⟨.perScope, 1⟩
  /-- With `--h` the last segment asks for hidden layers, and no other one does. -/
  hiddenOnly : segment.visibility = .hiddenOnly ↔
    Given pieces .hiddenOnly ∧ k + 1 = positions.length

/-- What the pieces of a query make its plan say, those at certain positions being its segments. -/
structure Shaped (pieces : List CleanPiece) (positions : List Nat) (plan : QueryPlan) :
    Prop where
  /-- The search starts below the selection if there are several pieces and the first is empty. -/
  childSearch : plan.childSearch = true ↔
    1 < pieces.length ∧ ∃ first, pieces.head? = some first ∧ first.text = []
  /-- The positions are in order. -/
  increasing : positions.Pairwise (· < ·)
  /-- A piece becomes a segment if there is something in it, or if it is the last one of several. -/
  mem_positions : ∀ i, i ∈ positions ↔ ∃ p, pieces[i]? = some p ∧
    (p.text ≠ [] ∨ i + 1 = pieces.length ∧ 1 < pieces.length)
  /-- There is nothing but these segments. -/
  length_segments : plan.segments.length = positions.length
  /-- Each one is shaped by its piece and its place. -/
  segments : ∀ k i own last segment, positions[k]? = some i → pieces[i]? = some own →
    pieces.getLast? = some last → plan.segments[k]? = some segment →
    SegmentShaped pieces positions last k i own segment
  /-- What is chosen at the end is the last index of the last piece, without `--f` and if there is a
  segment. -/
  finalPick : ∀ pick, plan.finalPick = some pick ↔
    ¬Given pieces .firstOverall ∧ plan.segments ≠ [] ∧ ∃ last, ∃ n : Nat,
      pieces.getLast? = some last ∧ LastNumber .index last.modifiers n ∧ pick = ⟨.overall, n⟩

theorem pickFor_inner {m : QueryModifiers} (hm : m.firstOverall = false) (p : CleanPiece)
    (pick : RankPick) :
    pickFor m p false = some pick ↔
      (∃ n : Nat, LastNumber .indexEach p.modifiers n ∧ pick = ⟨.perScope, n⟩) ∨
      (¬∃ n, LastNumber .indexEach p.modifiers n) ∧
        ∃ n : Nat, LastNumber .index p.modifiers n ∧ pick = ⟨.overall, n⟩ := by
  simp only [pickFor, hm, Bool.false_eq_true, if_false, ← lastIndexEach?_eq_some,
    ← lastIndex?_eq_some]
  cases lastIndexEach? p.modifiers <;> cases lastIndex? p.modifiers <;> simp [eq_comm]

theorem pickFor_final {m : QueryModifiers} (hm : m.firstOverall = false) (p : CleanPiece)
    (pick : RankPick) :
    pickFor m p true = some pick ↔
      (∃ n : Nat, m.indexEach = some n ∧ pick = ⟨.perScope, n⟩) ∨
      (¬∃ n, m.indexEach = some n) ∧ m.firstEach = true ∧ pick = ⟨.perScope, 1⟩ := by
  simp only [pickFor, hm, Bool.false_eq_true, if_false, if_true]
  cases m.indexEach <;> cases m.firstEach <;> simp [@eq_comm _ pick]

theorem finalPick_assembled (raw : String) (m : QueryModifiers) (childSearch : Bool)
    (placed : List PlacedPiece) (pick : RankPick) :
    (assembled raw m childSearch placed).finalPick = some pick ↔
      m.firstOverall = false ∧ placed ≠ [] ∧
        ∃ n : Nat, m.index = some n ∧ pick = ⟨.overall, n⟩ := by
  rw [assembled]
  cases m.index <;> cases m.firstOverall <;> cases placed <;> simp [@eq_comm _ pick]

private theorem resolve_eq_hiddenOnly {hiddenOnly allLayers isFinal : Bool} :
    VisibilityMode.resolve hiddenOnly allLayers isFinal = .hiddenOnly ↔
      hiddenOnly = true ∧ isFinal = true := by
  revert hiddenOnly allLayers isFinal
  decide

theorem contains_iff_given {w : Modifier} :
    (pieces.flatMap CleanPiece.modifiers).contains w = true ↔ Given pieces w := by
  rw [List.contains_iff_mem, List.mem_flatMap, Given]

theorem firstOverall_eq_false_iff :
    (modifiersOf pieces).firstOverall = false ↔ ¬Given pieces .firstOverall := by
  rw [← Bool.not_eq_true]
  exact not_congr contains_iff_given

theorem modifiersOf_of_getLast? (hlast : pieces.getLast? = some last) :
    (modifiersOf pieces).index = lastIndex? last.modifiers ∧
      (modifiersOf pieces).indexEach = lastIndexEach? last.modifiers := by
  rw [modifiersOf, hlast]
  exact ⟨rfl, rfl⟩

theorem pairwise_places (pieces : List CleanPiece) : (places pieces).Pairwise (· < ·) :=
  List.pairwise_lt_range.filter _

theorem mem_take_iff {positions : List Nat} (h : positions.Pairwise (· < ·)) {k i' : Nat}
    (hk : positions[k]? = some i) : i' ∈ positions.take k ↔ i' ∈ positions ∧ i' < i := by
  obtain ⟨hlt, rfl⟩ := List.getElem?_eq_some_iff.mp hk
  rw [List.pairwise_iff_getElem] at h
  constructor
  · intro hmem
    obtain ⟨j, hj, rfl⟩ := List.mem_take_iff_getElem.mp hmem
    exact ⟨List.getElem_mem _, h j k _ hlt (by omega)⟩
  · rintro ⟨hmem, hless⟩
    obtain ⟨j, hj, rfl⟩ := List.mem_iff_getElem.mp hmem
    refine List.mem_take_iff_getElem.mpr ⟨j, ?_, rfl⟩
    by_contra hge
    rcases Nat.eq_or_lt_of_le (show k ≤ j by omega) with rfl | hkj
    · exact lt_irrefl _ hless
    · exact lt_asymm hless (h k j hlt hj hkj)

private theorem segmentShaped_segmentOf {positions : List Nat} {k : Nat} {q : PlacedPiece}
    (hpositions : positions = places pieces) (hk : positions[k]? = some i)
    (hq : PlacedAt false pieces i q) (hlast : pieces.getLast? = some last) :
    SegmentShaped pieces positions last k i q.piece
      (segmentOf (modifiersOf pieces) q (k == 0) (k + 1 == positions.length)) := by
  subst hpositions
  obtain ⟨hsymbol, hname⟩ := segmentOf_symbol (modifiersOf pieces) (k == 0)
    (k + 1 == (places pieces).length) hq.implicit
  have hfirst : (modifiersOf pieces).firstOverall = true ↔ Given pieces .firstOverall :=
    contains_iff_given
  constructor
  case implicit =>
    change q.implicit = true ↔ _
    rw [hq.implicit, List.isEmpty_iff]
  case unnamed =>
    intro hempty
    rw [hsymbol, hname, hempty]
    exact ⟨rfl, rfl⟩
  case named => exact fun _ ↦ ⟨hsymbol, hname⟩
  case direct =>
    change q.direct = true ↔ _
    simp only [hq.direct, FollowsDirect, mem_take_iff (pairwise_places pieces) hk,
      Bool.false_eq_true, false_and, or_false, and_imp]
  case isFirst => exact beq_iff_eq
  case isFinal => exact beq_iff_eq
  case stopAtFirst => exact hfirst
  case pick_first =>
    intro hgiven
    change pickFor _ _ _ = none
    rw [pickFor, hfirst.mpr hgiven, if_pos rfl]
  case pick_inner =>
    intro hgiven hinner pick
    change pickFor _ _ (k + 1 == (places pieces).length) = some pick ↔ _
    rw [beq_false_of_ne hinner]
    exact pickFor_inner (firstOverall_eq_false_iff.mpr hgiven) q.piece pick
  case pick_final =>
    intro hgiven hfinal pick
    change pickFor _ _ (k + 1 == (places pieces).length) = some pick ↔ _
    have hall : (modifiersOf pieces).firstEach = true ↔ Given pieces .firstEach :=
      contains_iff_given
    simp only [hfinal, beq_self_eq_true, pickFor_final (firstOverall_eq_false_iff.mpr hgiven),
      (modifiersOf_of_getLast? hlast).2, hall, lastIndexEach?_eq_some]
  case hiddenOnly =>
    change VisibilityMode.resolve _ _ (k + 1 == (places pieces).length) = .hiddenOnly ↔ _
    rw [resolve_eq_hiddenOnly, beq_iff_eq]
    exact and_congr_left' contains_iff_given

/-- **The shape of every plan.** What a query becomes is said by its pieces. -/
theorem shaped_of_parseQuery (h : parseQuery query = .ok plan) :
    ∃ pieces positions, cleanPieces query = .ok pieces ∧ Shaped pieces positions plan := by
  obtain ⟨pieces, hpieces, rfl⟩ := exists_ofPieces h
  obtain ⟨first, rest, rfl, hfirst, hrest⟩ := exists_cleanPieces hpieces
  refine ⟨_, places (first :: rest), hpieces, ?_⟩
  have hplaced := forall₂_arrange false (first :: rest)
  have hlength := hplaced.length_eq
  rw [ofPieces_eq, arrange_leading hfirst]
  constructor
  case childSearch => exact leading_childSearch (first :: rest)
  case increasing => exact pairwise_places (first :: rest)
  case mem_positions => exact fun i ↦ mem_places_iff hfirst hrest
  case length_segments => exact (length_segmentsOf ..).trans hlength.symm
  case segments =>
    intro k i own last segment hi hown hlast hsegment
    rw [assembled, getElem?_segmentsOf, ← hlength] at hsegment
    obtain ⟨q, hq, rfl⟩ := Option.map_eq_some_iff.mp hsegment
    obtain ⟨hlt, rfl⟩ := List.getElem?_eq_some_iff.mp hi
    obtain ⟨hlt', rfl⟩ := List.getElem?_eq_some_iff.mp hq
    have hat := hplaced.get hlt hlt'
    rw [List.get_eq_getElem, List.get_eq_getElem] at hat
    obtain rfl := Option.some.inj (hat.piece.symm.trans hown)
    exact segmentShaped_segmentOf rfl hi hat hlast
  case finalPick =>
    intro pick
    obtain ⟨last, hlast⟩ := Option.isSome_iff_exists.mp
      (List.getLast?_isSome.mpr (List.cons_ne_nil first rest))
    have hsome : (assembled query (modifiersOf (first :: rest)) (leading (first :: rest)).1
        (arrange false (first :: rest))).segments ≠ [] ↔ arrange false (first :: rest) ≠ [] := by
      rw [← List.isEmpty_eq_false_iff, ← List.isEmpty_eq_false_iff, assembled, isEmpty_segmentsOf]
    rw [finalPick_assembled, firstOverall_eq_false_iff, (modifiersOf_of_getLast? hlast).1, hsome]
    simp only [hlast, Option.some.injEq, lastIndex?_eq_some, exists_and_left, exists_eq_left']

/-- Empty pieces, with modifiers and without, in front of a segment, between two and at the end. -/
theorem shaped_of_parseQuery_slashed :
    ∃ plan, parseQuery " --h/@A --2//--a/\"b/\" --1 --3e/ --0 --4e " = .ok plan ∧
      (plan.segments.map fun s ↦ (s.nameQuery, s.direct, s.pick)) =
        [("A", false, some ⟨.overall, 2⟩), ("\"b/\"", true, some ⟨.perScope, 3⟩),
          ("", false, some ⟨.perScope, 4⟩)] ∧
      ∃ pieces positions, cleanPieces " --h/@A --2//--a/\"b/\" --1 --3e/ --0 --4e " = .ok pieces ∧
        Shaped pieces positions plan := by
  obtain ⟨plan, hplan⟩ :
      ∃ plan, parseQuery " --h/@A --2//--a/\"b/\" --1 --3e/ --0 --4e " = .ok plan := ⟨_, rfl⟩
  refine ⟨plan, hplan, ?_, shaped_of_parseQuery hplan⟩
  obtain rfl := Except.ok.inj hplan
  decide

end QueryPlan

end SceneSearch
