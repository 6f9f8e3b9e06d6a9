import Mathlib.Logic.Relation
import SceneSearch.Proofs.Sorting.Ascending
import SceneSearch.Sorting.Merge

/-!
# Merging ascending runs

However a merge goes on, item by item or at a gallop, all it does is to move the next items of a run
that are not above the first item of the other run. `Merge.Step` is such a move. It keeps `Sound`:
what is merged ascends and goes on ascending into what is left of either run. Once the merge is
settled this says that all items ascend.

A merge is settled in the end, since each turn moves an item and there are as many turns as items.
-/

namespace SceneSearch

namespace Sorting

variable {α : Type} {precedes : α → α → Bool} {P : α → Prop}

namespace Merge

/-! ## Steps -/

/-- What every step of a merge keeps. -/
structure Sound (precedes : α → α → Bool) (P : α → Prop) (m : Merge α) : Prop where
  /-- The merged items and the leading run ascend. -/
  leading : Ascending precedes P (m.merged.reverse ++ m.leading)
  /-- The merged items and the trailing run ascend. -/
  trailing : Ascending precedes P (m.merged.reverse ++ m.trailing)
  /-- The last item of the trailing run may go last of all. -/
  last : ∀ t ∈ m.trailing.getLast?, ∀ l ∈ m.leading, precedes t l = false

/-- One run moves its next items, none of which is above the first item of the other. -/
inductive Step (precedes : α → α → Bool) : Merge α → Merge α → Prop
  | leading {m : Merge α} (count : Nat) :
    (∀ l ∈ m.leading.take count, ∀ t ∈ m.trailing.head?, precedes t l = false) →
      Step precedes m (m.takeLeading count)
  | trailing {m : Merge α} (count : Nat) :
    (∀ t ∈ m.trailing.take count, ∀ l ∈ m.leading.head?, precedes l t = false) →
      Step precedes m (m.takeTrailing count)

/-- Steps one after another. -/
def Steps (precedes : α → α → Bool) : Merge α → Merge α → Prop :=
  Relation.ReflTransGen (Step precedes)

/-- The number of items that are not merged yet. -/
def remaining (m : Merge α) : Nat := m.leading.length + m.trailing.length

variable {m after : Merge α}

private theorem merged_takeLeading (count : Nat) :
    (m.takeLeading count).merged.reverse = m.merged.reverse ++ m.leading.take count := by
  simp [takeLeading]

private theorem merged_takeTrailing (count : Nat) :
    (m.takeTrailing count).merged.reverse = m.merged.reverse ++ m.trailing.take count := by
  simp [takeTrailing]

theorem Step.sound (ho : Orders precedes P) (h : Step precedes m after)
    (hm : m.Sound precedes P) : after.Sound precedes P := by
  obtain ⟨hmerged, hleading, hmergedLeading⟩ := ascending_append.mp hm.leading
  obtain ⟨-, htrailing, hmergedTrailing⟩ := ascending_append.mp hm.trailing
  rcases h with ⟨count, hmoved⟩ | ⟨count, hmoved⟩
  · refine ⟨?_, ?_, fun t ht l hl ↦ hm.last t ht l (List.mem_of_mem_drop hl)⟩
    · rw [merged_takeLeading, List.append_assoc]
      simpa [takeLeading] using hm.leading
    · rw [merged_takeLeading, List.append_assoc]
      refine ascending_append.mpr ⟨hmerged, ascending_append.mpr ⟨hleading.take count, htrailing,
        fun l hl ↦ ?_⟩, fun a ha b hb ↦ ?_⟩
      · exact htrailing.not_above_of_head ho (hleading.fit l (List.mem_of_mem_take hl))
          (hmoved l hl)
      · rcases List.mem_append.mp hb with hb | hb
        · exact hmergedLeading a ha b (List.mem_of_mem_take hb)
        · exact hmergedTrailing a ha b hb
  · refine ⟨?_, ?_, fun t ht l hl ↦ hm.last t ?_ l hl⟩
    · rw [merged_takeTrailing, List.append_assoc]
      refine ascending_append.mpr ⟨hmerged, ascending_append.mpr ⟨htrailing.take count, hleading,
        fun t ht ↦ ?_⟩, fun a ha b hb ↦ ?_⟩
      · exact hleading.not_above_of_head ho (htrailing.fit t (List.mem_of_mem_take ht))
          (hmoved t ht)
      · rcases List.mem_append.mp hb with hb | hb
        · exact hmergedTrailing a ha b (List.mem_of_mem_take hb)
        · exact hmergedLeading a ha b hb
    · rw [merged_takeTrailing, List.append_assoc]
      simpa [takeTrailing] using hm.trailing
    · rw [takeTrailing, List.getLast?_drop] at ht
      split at ht
      · cases ht
      · exact ht

theorem Step.remaining_le (h : Step precedes m after) : after.remaining ≤ m.remaining := by
  rcases h with ⟨count, -⟩ | ⟨count, -⟩
  · simp only [remaining, takeLeading, List.length_drop]
    omega
  · simp only [remaining, takeTrailing, List.length_drop]
    omega

theorem Steps.sound (ho : Orders precedes P) (h : Steps precedes m after)
    (hm : m.Sound precedes P) : after.Sound precedes P := by
  induction h with
  | refl => exact hm
  | tail _ hstep ih => exact hstep.sound ho ih

theorem Steps.remaining_le (h : Steps precedes m after) : after.remaining ≤ m.remaining := by
  induction h with
  | refl => exact Nat.le_refl _
  | tail _ hstep ih => exact Nat.le_trans hstep.remaining_le ih

theorem Sound.ascending_items (hm : m.Sound precedes P) (h : m.settled = true) :
    Ascending precedes P m.items := by
  obtain ⟨hmerged, hleading, hmergedLeading⟩ := ascending_append.mp hm.leading
  obtain ⟨-, htrailing, hmergedTrailing⟩ := ascending_append.mp hm.trailing
  have hlast : ∀ l ∈ m.leading, ∀ t ∈ m.trailing, precedes t l = false := by
    intro l hl t ht
    rw [settled, Bool.or_eq_true, List.isEmpty_iff, decide_eq_true_iff] at h
    rcases h with hempty | hone
    · rw [hempty] at hl
      cases hl
    · -- the only trailing item is the last one
      obtain ⟨t', hsingle⟩ := List.length_eq_one_iff.mp
        (Nat.le_antisymm hone (List.length_pos_of_mem ht))
      refine hm.last t ?_ l hl
      rw [hsingle] at ht ⊢
      rw [List.mem_singleton.mp ht]
      rfl
  refine ascending_append.mpr ⟨hmerged, ascending_append.mpr ⟨hleading, htrailing, hlast⟩,
    fun a ha b hb ↦ ?_⟩
  rcases List.mem_append.mp hb with hb | hb
  · exact hmergedLeading a ha b hb
  · exact hmergedTrailing a ha b hb

theorem Sound.fit_leading (hm : m.Sound precedes P) : ∀ l ∈ m.leading, P l := fun l hl ↦
  hm.leading.fit l (List.mem_append_right _ hl)

theorem Sound.fit_trailing (hm : m.Sound precedes P) : ∀ t ∈ m.trailing, P t := fun t ht ↦
  hm.trailing.fit t (List.mem_append_right _ ht)

/-! ## Every way to go on takes steps -/

theorem Sound.step_leading (ho : Orders precedes P) (hm : m.Sound precedes P) (count : Nat)
    (h : ∀ l ∈ m.leading.take count, ∀ t ∈ m.trailing.head?, precedes l t = true) :
    Step precedes m (m.takeLeading count) := by
  refine Step.leading count fun l hl t ht ↦ ho.asymm ?_ ?_ (h l hl t ht)
  · exact hm.fit_leading l (List.mem_of_mem_take hl)
  · exact hm.fit_trailing t (List.mem_of_mem_head? ht)

theorem steps_race (ho : Orders precedes P) (threshold : Nat) (merged : List α)
    (leadingWins trailingWins : Nat) (leading trailing : List α)
    (hm : (Merge.mk merged leading trailing).Sound precedes P) :
    Steps precedes ⟨merged, leading, trailing⟩
      (race precedes threshold merged leadingWins trailingWins leading trailing) := by
  fun_induction race precedes threshold merged leadingWins trailingWins leading trailing with
  | case1 merged _ _ l ls t t' ts h =>
    have hstep := hm.step_leading ho 1 (by simp [h])
    exact .single hstep
  | case2 merged _ _ l ls t t' ts h _ ih =>
    have hstep := hm.step_leading ho 1 (by simp [h])
    exact .head hstep (ih (hstep.sound ho hm))
  | case3 merged _ _ l ls t t' ts h =>
    have hstep : Step precedes ⟨merged, l :: ls, t :: t' :: ts⟩ ⟨t :: merged, l :: ls, t' :: ts⟩ :=
      Step.trailing 1 (by simpa using h)
    exact .single hstep
  | case4 merged _ _ l ls t t' ts h _ ih =>
    have hstep : Step precedes ⟨merged, l :: ls, t :: t' :: ts⟩ ⟨t :: merged, l :: ls, t' :: ts⟩ :=
      Step.trailing 1 (by simpa using h)
    exact .head hstep (ih (hstep.sound ho hm))
  | case5 => exact .refl

variable (side : Side)

private theorem steps_leapLeading (ho : Orders precedes P) (hm : m.Sound precedes P) :
    Steps precedes m (leapLeading precedes side m).1 := by
  rw [leapLeading]
  split
  · exact .refl
  · rename_i t ts htrailing
    have hleading := (ascending_append.mp hm.leading).2.1
    have ht : P t := hm.fit_trailing t (by simp [htrailing])
    have hcut := (hleading.holdsUpToPoint_below ho ht).cuts_gallop side
    dsimp only
    generalize gallop side (fun l ↦ precedes l t) m.leading = count at hcut ⊢
    have hleap : Step precedes m (m.takeLeading count) :=
      hm.step_leading ho count fun l hl t' ht' ↦ by
        rw [htrailing] at ht'
        rw [← Option.some.inj ht']
        exact hcut.yes l hl
    split
    · exact .single hleap
    · refine .tail (.single hleap) (Step.trailing 1 fun t' ht' l hl ↦ ?_)
      -- the leading run stopped at an item that does not go before `t`
      obtain rfl : t' = t := by simpa [takeLeading, htrailing] using ht'
      exact hcut.no l (List.mem_of_mem_head? hl)

private theorem steps_leapTrailing (ho : Orders precedes P) (hm : m.Sound precedes P) :
    Steps precedes m (leapTrailing precedes side m).1 := by
  rw [leapTrailing]
  split
  · exact .refl
  · rename_i l ls hleading
    have htrailing := (ascending_append.mp hm.trailing).2.1
    have hl : P l := hm.fit_leading l (by simp [hleading])
    have hcut := (htrailing.holdsUpToPoint_not_above ho hl).cuts_gallop side
    dsimp only
    generalize gallop side (fun t ↦ !precedes l t) m.trailing = count at hcut ⊢
    have hleap : Step precedes m (m.takeTrailing count) := by
      refine Step.trailing count fun t ht l' hl' ↦ ?_
      rw [hleading] at hl'
      rw [← Option.some.inj hl']
      simpa using hcut.yes t ht
    split
    · exact .single hleap
    · refine .tail (.single hleap) ((hleap.sound ho hm).step_leading ho 1 fun l' hl' t ht ↦ ?_)
      -- the trailing run stopped at an item that `l` goes before
      obtain rfl : l' = l := by simpa [takeTrailing, hleading] using hl'
      simpa using hcut.no t (List.mem_of_mem_head? ht)

private theorem steps_round (ho : Orders precedes P) (hm : m.Sound precedes P) :
    Steps precedes m (round precedes side m).1 := by
  have hleading := steps_leapLeading side ho hm
  have htrailing := steps_leapTrailing side ho hm
  match side with
  | .front =>
    simp only [round]
    split
    · exact htrailing
    · exact htrailing.trans (steps_leapLeading .front ho (htrailing.sound ho hm))
  | .back =>
    simp only [round]
    split
    · exact hleading
    · exact hleading.trans (steps_leapTrailing .back ho (hleading.sound ho hm))

theorem steps_gallopOn (ho : Orders precedes P) (fuel threshold : Nat)
    (hm : m.Sound precedes P) : Steps precedes m (gallopOn precedes side fuel threshold m).1 := by
  induction fuel generalizing threshold m with
  | zero => exact .refl
  | succ fuel ih =>
    have hround := steps_round side ho hm
    simp only [gallopOn]
    split
    · exact hround
    · split
      · exact hround.trans (ih _ (hround.sound ho hm))
      · exact hround

private theorem steps_settle (ho : Orders precedes P) (fuel threshold : Nat)
    (hm : m.Sound precedes P) :
    Steps precedes m (settle precedes side fuel threshold m).1 := by
  induction fuel generalizing threshold m with
  | zero => exact .refl
  | succ fuel ih =>
    have hrace := steps_race ho threshold m.merged 0 0 m.leading m.trailing hm
    have hgallop := steps_gallopOn side ho (fuel + 1) threshold (hrace.sound ho hm)
    simp only [settle]
    split
    · exact hrace
    · split
      · exact hrace.trans hgallop
      · exact (hrace.trans hgallop).trans (ih _ (hgallop.sound ho (hrace.sound ho hm)))

/-! ## The end of a merge -/

private theorem remaining_race_le (threshold : Nat) (merged : List α)
    (leadingWins trailingWins : Nat)
    (leading trailing : List α) :
    (race precedes threshold merged leadingWins trailingWins leading trailing).remaining ≤
      leading.length + trailing.length := by
  fun_induction race precedes threshold merged leadingWins trailingWins leading trailing with
  | case1 => simp [remaining]
  | case2 _ _ _ l ls t t' ts _ _ ih => exact Nat.le_trans ih (by simp)
  | case3 => simp [remaining]
  | case4 _ _ _ l ls t t' ts _ _ ih => exact Nat.le_trans ih (by simp)
  | case5 => exact Nat.le_refl _

private theorem race_of_settled (threshold : Nat) (h : m.settled = true) :
    race precedes threshold m.merged 0 0 m.leading m.trailing = m := by
  match m, h with
  | ⟨merged, [], _⟩, _ => simp [race]
  | ⟨merged, _ :: _, []⟩, _ => simp [race]
  | ⟨merged, _ :: _, [_]⟩, _ => simp [race]

private theorem remaining_race_lt (precedes : α → α → Bool) (threshold : Nat)
    (h : m.settled = false) :
    (race precedes threshold m.merged 0 0 m.leading m.trailing).remaining < m.remaining := by
  match m, h with
  | ⟨merged, l :: ls, t :: t' :: ts⟩, _ =>
    simp only [race]
    split
    · split
      · simp [remaining]
      · exact Nat.lt_of_le_of_lt (remaining_race_le ..) (by simp [remaining])
    · split
      · simp [remaining]
      · exact Nat.lt_of_le_of_lt (remaining_race_le ..) (by simp [remaining])

private theorem settled_of_remaining_eq_zero (h : m.remaining = 0) : m.settled = true := by
  have hleading : m.leading = [] := List.eq_nil_of_length_eq_zero (by rw [remaining] at h; omega)
  simp [settled, hleading]

private theorem settled_settle (ho : Orders precedes P) (fuel threshold : Nat)
    (hm : m.Sound precedes P)
    (hfuel : m.remaining ≤ fuel) : (settle precedes side fuel threshold m).1.settled = true := by
  induction fuel generalizing threshold m with
  | zero => exact settled_of_remaining_eq_zero (Nat.le_zero.mp hfuel)
  | succ fuel ih =>
    have hrace := steps_race ho threshold m.merged 0 0 m.leading m.trailing hm
    have hgallop := steps_gallopOn side ho (fuel + 1) threshold (hrace.sound ho hm)
    simp only [settle]
    split
    · rename_i hsettled
      exact hsettled
    · rename_i hraced
      split
      · rename_i hsettled
        exact hsettled
      · refine ih _ (hgallop.sound ho (hrace.sound ho hm)) ?_
        have hle := hgallop.remaining_le
        have hunsettled : m.settled = false := by
          by_contra h
          rw [Bool.not_eq_false] at h
          rw [race_of_settled threshold h] at hraced
          exact hraced h
        have hlt := remaining_race_lt precedes threshold hunsettled
        omega

end Merge

/-- **Merging two ascending runs gives an ascending run**, if the first item of the leading one is
above none of the trailing items, and the last trailing one below none of the leading items. -/
theorem ascending_mergeRuns (ho : Orders precedes P) (side : Side) (threshold : Nat)
    {leading trailing : List α} (hleading : Ascending precedes P leading)
    (htrailing : Ascending precedes P trailing)
    (hfirst : ∀ l ∈ leading.head?, ∀ t ∈ trailing, precedes t l = false)
    (hlast : ∀ t ∈ trailing.getLast?, ∀ l ∈ leading, precedes t l = false) :
    Ascending precedes P (mergeRuns precedes side threshold leading trailing).1 := by
  have hm : (Merge.mk [] leading trailing).Sound precedes P := ⟨hleading, htrailing, hlast⟩
  have hstep : Merge.Step precedes (Merge.mk [] leading trailing)
      ((Merge.mk [] leading trailing).takeLeading 1) := by
    refine Merge.Step.leading 1 fun l hl t ht ↦ hfirst l ?_ t (List.mem_of_mem_head? ht)
    match leading with
    | [] => cases hl
    | first :: rest => simpa [eq_comm] using hl
  have hstart := hstep.sound ho hm
  have hsettle := Merge.steps_settle side ho (leading.length + trailing.length) threshold hstart
  exact (hsettle.sound ho hstart).ascending_items
    (Merge.settled_settle side ho _ threshold hstart hstep.remaining_le)

end Sorting

end SceneSearch
