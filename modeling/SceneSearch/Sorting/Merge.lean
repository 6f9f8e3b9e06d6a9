import SceneSearch.Sorting.Bisection

/-!
# Merging two runs

Two neighbouring runs are merged from one end. Of the *leading* run it is known that its first item
goes first of all, of the *trailing* run that its last item goes last of all; so the merge is
settled once the leading run is used up or one trailing item is left.

Items are compared one by one until one run has won many times in a row. Then the runs gallop: a run
searches how far it goes before the first item of the other. How many wins make it gallop is the
*threshold*, which falls as long as galloping pays and rises when it no longer does.
-/

namespace SceneSearch

namespace Sorting

variable {α : Type}

/-! ## A merge under way -/

/-- A merge under way. -/
structure Merge (α : Type) where
  /-- The items merged so far, the latest first. -/
  merged : List α := []
  /-- What is left of the leading run. -/
  leading : List α
  /-- What is left of the trailing run. -/
  trailing : List α

namespace Merge

/-- No comparison is left to make. -/
def settled (m : Merge α) : Bool := m.leading.isEmpty || m.trailing.length ≤ 1

/-- All items: the merged ones, then what is left of the leading and of the trailing run. -/
def items (m : Merge α) : List α := m.merged.reverse ++ (m.leading ++ m.trailing)

/-- Moves the next items of the leading run. -/
def takeLeading (count : Nat) (m : Merge α) : Merge α :=
  ⟨(m.leading.take count).reverse ++ m.merged, m.leading.drop count, m.trailing⟩

/-- Moves the next items of the trailing run. -/
def takeTrailing (count : Nat) (m : Merge α) : Merge α :=
  ⟨(m.trailing.take count).reverse ++ m.merged, m.leading, m.trailing.drop count⟩

theorem items_takeLeading (count : Nat) (m : Merge α) : (m.takeLeading count).items = m.items := by
  simp [items, takeLeading, ← List.append_assoc (m.leading.take count)]

theorem items_takeTrailing (count : Nat) (m : Merge α) :
    (m.takeTrailing count).items.Perm m.items := by
  have swapped : (m.trailing.take count ++ (m.leading ++ m.trailing.drop count)).Perm
      (m.leading ++ m.trailing) := by
    refine (List.perm_append_comm_assoc _ _ _).trans ?_
    rw [List.take_append_drop]
  simpa [items, takeTrailing] using swapped.append_left m.merged.reverse

/-! ## One by one -/

variable (precedes : α → α → Bool)

/-- Compares items one by one, until the merge is settled or a run has won `threshold` times in a
row. `leadingWins` and `trailingWins` are its latest wins. -/
def race (threshold : Nat) (merged : List α) (leadingWins trailingWins : Nat) :
    List α → List α → Merge α
  | l :: ls, t :: t' :: ts =>
    if precedes l t then
      if threshold ≤ leadingWins + 1 then ⟨l :: merged, ls, t :: t' :: ts⟩
      else race threshold (l :: merged) (leadingWins + 1) 0 ls (t :: t' :: ts)
    else if threshold ≤ trailingWins + 1 then ⟨t :: merged, l :: ls, t' :: ts⟩
    else race threshold (t :: merged) 0 (trailingWins + 1) (l :: ls) (t' :: ts)
  | leading, trailing => ⟨merged, leading, trailing⟩
termination_by leading trailing => leading.length + trailing.length

theorem items_race (threshold : Nat) (merged : List α) (leadingWins trailingWins : Nat)
    (leading trailing : List α) :
    (race precedes threshold merged leadingWins trailingWins leading trailing).items.Perm
      (Merge.mk merged leading trailing).items := by
  fun_induction race precedes threshold merged leadingWins trailingWins leading trailing with
  | case1 merged _ _ l ls t t' ts => simp [items]
  | case2 merged _ _ l ls t t' ts _ _ ih => simpa [items] using ih
  | case3 merged _ _ l ls t t' ts =>
    exact items_takeTrailing 1 ⟨merged, l :: ls, t :: t' :: ts⟩
  | case4 merged _ _ l ls t t' ts _ _ ih =>
    exact ih.trans (items_takeTrailing 1 ⟨merged, l :: ls, t :: t' :: ts⟩)
  | case5 => exact List.Perm.refl _

/-! ## Galloping -/

variable (side : Side)

/-- The leading run gallops, then the trailing item that stopped it is moved. Also counts the
galloped items. -/
def leapLeading (m : Merge α) : Merge α × Nat :=
  match m.trailing with
  | [] => (m, 0)
  | t :: _ =>
    let count := gallop side (fun l ↦ precedes l t) m.leading
    let after := m.takeLeading count
    (if after.settled then after else after.takeTrailing 1, count)

/-- The trailing run gallops, then the leading item that stopped it is moved. Also counts the
galloped items. -/
def leapTrailing (m : Merge α) : Merge α × Nat :=
  match m.leading with
  | [] => (m, 0)
  | l :: _ =>
    let count := gallop side (fun t ↦ !precedes l t) m.trailing
    let after := m.takeTrailing count
    (if after.settled then after else after.takeLeading 1, count)

theorem items_leapLeading (m : Merge α) :
    (leapLeading precedes side m).1.items.Perm m.items := by
  simp only [leapLeading]
  split
  · exact List.Perm.refl _
  · dsimp only
    split
    · rw [items_takeLeading]
    · exact (items_takeTrailing _ _).trans (by rw [items_takeLeading])

theorem items_leapTrailing (m : Merge α) :
    (leapTrailing precedes side m).1.items.Perm m.items := by
  simp only [leapTrailing]
  split
  · exact List.Perm.refl _
  · dsimp only
    split
    · exact items_takeTrailing _ _
    · rw [items_takeLeading]
      exact items_takeTrailing _ _

/-- Both runs gallop once. The one that lies to the left in the list begins: the trailing one if the
merge comes from the front. -/
def round (m : Merge α) : Merge α × Nat :=
  let (first, second) := match side with
    | .front => (leapTrailing precedes side, leapLeading precedes side)
    | .back => (leapLeading precedes side, leapTrailing precedes side)
  let (halfway, count) := first m
  if halfway.settled then (halfway, count)
  else ((second halfway).1, max count (second halfway).2)

theorem items_round (m : Merge α) : (round precedes side m).1.items.Perm m.items := by
  cases side <;> simp only [round] <;> split
  · exact items_leapTrailing ..
  · exact (items_leapLeading ..).trans (items_leapTrailing ..)
  · exact items_leapLeading ..
  · exact (items_leapTrailing ..).trans (items_leapLeading ..)

/-- The least number of items that a leap should pass for galloping to pay, and the threshold at
first. -/
def leastLeap : Nat := 7

/-- Gallops while it pays. The threshold falls by one with each further round and rises by one when
galloping stops. There are at most `fuel` rounds. -/
def gallopOn : (fuel threshold : Nat) → Merge α → Merge α × Nat
  | 0, threshold, m => (m, threshold)
  | fuel + 1, threshold, m =>
    let (after, count) := round precedes side m
    if after.settled then (after, threshold)
    else if leastLeap ≤ count then gallopOn fuel (max 1 (threshold - 1)) after
    else (after, threshold + 1)

theorem items_gallopOn (fuel threshold : Nat) (m : Merge α) :
    (gallopOn precedes side fuel threshold m).1.items.Perm m.items := by
  induction fuel generalizing threshold m with
  | zero => exact List.Perm.refl _
  | succ fuel ih =>
    simp only [gallopOn]
    split
    · exact items_round ..
    · split
      · exact (ih ..).trans (items_round ..)
      · exact items_round ..

/-! ## The whole merge -/

/-- Takes turns of comparing one by one and of galloping until the merge is settled. A turn moves an
item, so as many turns as there are items are enough. -/
def settle : (fuel threshold : Nat) → Merge α → Merge α × Nat
  | 0, threshold, m => (m, threshold)
  | fuel + 1, threshold, m =>
    let raced := race precedes threshold m.merged 0 0 m.leading m.trailing
    if raced.settled then (raced, threshold)
    else
      let (after, threshold) := gallopOn precedes side (fuel + 1) threshold raced
      if after.settled then (after, threshold) else settle fuel threshold after

theorem items_settle (fuel threshold : Nat) (m : Merge α) :
    (settle precedes side fuel threshold m).1.items.Perm m.items := by
  induction fuel generalizing threshold m with
  | zero => exact List.Perm.refl _
  | succ fuel ih =>
    simp only [settle]
    have raced := items_race precedes threshold m.merged 0 0 m.leading m.trailing
    split
    · exact raced
    · split
      · exact (items_gallopOn ..).trans raced
      · exact (ih ..).trans ((items_gallopOn ..).trans raced)

end Merge

/-- Merges a leading and a trailing run by the order of a leading and a trailing item. Also gives
the threshold that the merge ends with. -/
def mergeRuns (precedes : α → α → Bool) (side : Side) (threshold : Nat)
    (leading trailing : List α) : List α × Nat :=
  let (m, threshold) := Merge.settle precedes side (leading.length + trailing.length) threshold
    ((Merge.mk [] leading trailing).takeLeading 1)
  (m.items, threshold)

theorem mergeRuns_perm (precedes : α → α → Bool) (side : Side) (threshold : Nat)
    (leading trailing : List α) :
    (mergeRuns precedes side threshold leading trailing).1.Perm (leading ++ trailing) := by
  simp only [mergeRuns]
  refine (Merge.items_settle ..).trans ?_
  rw [Merge.items_takeLeading]
  simp [Merge.items]

/-! ## Neighbouring runs -/

/-- Joins two neighbouring runs. The items of `a` that do not go behind the first one of `b` stay
where they are, as do the items of `b` that do not go before the last one of `a`. What is between is
merged from the end at which the shorter run lies. -/
def joinRuns (lt : α → α → Bool) (threshold : Nat) (a b : List α) : List α × Nat :=
  match b with
  | [] => (a, threshold)
  | first :: _ =>
    let before := gallop .front (fun x ↦ !lt first x) a
    let inner := a.drop before
    match inner.getLast? with
    | none => (a ++ b, threshold)
    | some last =>
      let after := b.length - gallop .back (fun x ↦ !lt x last) b.reverse
      let outer := b.take after
      let (middle, threshold) :=
        if outer.isEmpty then (inner, threshold)
        else if inner.length ≤ outer.length then mergeRuns lt .front threshold outer inner
        else
          let (reversed, threshold) :=
            mergeRuns (fun x y ↦ lt y x) .back threshold inner.reverse outer.reverse
          (reversed.reverse, threshold)
      (a.take before ++ (middle ++ b.drop after), threshold)

theorem joinRuns_perm (lt : α → α → Bool) (threshold : Nat) (a b : List α) :
    (joinRuns lt threshold a b).1.Perm (a ++ b) := by
  match b with
  | [] => simp [joinRuns]
  | first :: rest =>
    simp only [joinRuns]
    split
    · exact List.Perm.refl _
    · rename_i last _
      generalize gallop .front (fun x ↦ !lt first x) a = before
      generalize List.length (first :: rest) -
        gallop .back (fun x ↦ !lt x last) (first :: rest).reverse = after
      generalize first :: rest = b
      have whole : a.take before ++ ((a.drop before ++ b.take after) ++ b.drop after) = a ++ b := by
        rw [List.append_assoc, List.take_append_drop, ← List.append_assoc, List.take_append_drop]
      rw [← whole]
      refine List.Perm.append_left _ (List.Perm.append_right _ ?_)
      split
      · rename_i empty
        rw [List.isEmpty_iff.mp empty, List.append_nil]
      · split
        · exact (mergeRuns_perm ..).trans List.perm_append_comm
        · refine (List.reverse_perm _).trans ((mergeRuns_perm ..).trans ?_)
          exact (List.reverse_perm _).append (List.reverse_perm _)

end Sorting

end SceneSearch
