import SceneSearch.Sorting.Bisection

/-!
# Runs

A run is a stretch of a list that is sorted already, or strictly falls and is sorted once reversed.
A list is cut into runs from its start. A run that is too short takes in the items after it, each
inserted behind the items that it is not below.
-/

namespace SceneSearch

namespace Sorting

variable {α : Type} (lt : α → α → Bool)

/-! ## The first run -/

/-- How many items of `rest` go on with the run that `last` ends: while they fall, or while they do
not. -/
def runLength (falling : Bool) (last : α) : List α → Nat
  | [] => 0
  | a :: rest => if lt a last == falling then 1 + runLength falling a rest else 0

/-- The sorted run at the start of a list, and the items after it. -/
def firstRun : List α → List α × List α
  | [] => ([], [])
  | [a] => ([a], [])
  | a :: b :: rest =>
    let falling := lt b a
    let count := 2 + runLength lt falling b rest
    let run := (a :: b :: rest).take count
    (if falling then run.reverse else run, (a :: b :: rest).drop count)

theorem firstRun_perm (items : List α) :
    ((firstRun lt items).1 ++ (firstRun lt items).2).Perm items := by
  match items with
  | [] => simp [firstRun]
  | [a] => simp [firstRun]
  | a :: b :: rest =>
    simp only [firstRun]
    split
    · refine ((List.reverse_perm _).append_right _).trans ?_
      rw [List.take_append_drop]
    · rw [List.take_append_drop]

theorem length_firstRun_snd_lt (a : α) (items : List α) :
    (firstRun lt (a :: items)).2.length < (a :: items).length := by
  match items with
  | [] => simp [firstRun]
  | b :: rest =>
    simp only [firstRun, List.length_drop, List.length_cons]
    omega

/-! ## Insertion -/

/-- Puts an item into a sorted list, behind the items that it is not below. -/
def insert (a : α) (sorted : List α) : List α :=
  let behind := bisect .front (fun b ↦ !lt a b) sorted
  sorted.take behind ++ a :: sorted.drop behind

theorem insert_perm (a : α) (sorted : List α) : (insert lt a sorted).Perm (a :: sorted) := by
  refine List.perm_middle.trans (List.Perm.cons a ?_)
  rw [List.take_append_drop]

/-- Puts items one by one into a sorted list. -/
def insertAll (sorted : List α) : List α → List α
  | [] => sorted
  | a :: rest => insertAll (insert lt a sorted) rest

theorem insertAll_perm (sorted rest : List α) :
    (insertAll lt sorted rest).Perm (sorted ++ rest) := by
  induction rest generalizing sorted with
  | nil => simp [insertAll]
  | cons a rest ih =>
    rw [insertAll]
    exact ((ih _).trans ((insert_perm lt a sorted).append_right rest)).trans
      List.perm_middle.symm

/-! ## Cutting a list into runs -/

/-- The least length of a run in a list of `n` items: the six leading binary digits of `n`, and one
more if the digits left out are not all zero. A list of less than 64 items is one run. -/
def leastRun (n : Nat) (leftOut : Nat := 0) : Nat :=
  if n < 64 then n + leftOut else leastRun (n / 2) (max leftOut (n % 2))

/-- The first run, with `least` items if there are so many, and the items after it. -/
def takeRun (least : Nat) (items : List α) : List α × List α :=
  let (run, rest) := firstRun lt items
  let missing := least - run.length
  (insertAll lt run (rest.take missing), rest.drop missing)

theorem takeRun_perm (least : Nat) (items : List α) :
    ((takeRun lt least items).1 ++ (takeRun lt least items).2).Perm items := by
  simp only [takeRun]
  refine ((insertAll_perm lt _ _).append_right _).trans ?_
  rw [List.append_assoc, List.take_append_drop]
  exact firstRun_perm lt items

theorem length_takeRun_snd_lt (least : Nat) (a : α) (items : List α) :
    (takeRun lt least (a :: items)).2.length < (a :: items).length := by
  have := length_firstRun_snd_lt lt a items
  simp only [takeRun, List.length_drop]
  omega

/-- The runs of a list, each of at least `least` items but the last. -/
def runs (least : Nat) : List α → List (List α)
  | [] => []
  | a :: items =>
    (takeRun lt least (a :: items)).1 :: runs least (takeRun lt least (a :: items)).2
termination_by items => items.length
decreasing_by exact length_takeRun_snd_lt lt least a items

theorem runs_perm (least : Nat) (items : List α) : (runs lt least items).flatten.Perm items := by
  fun_induction runs lt least items with
  | case1 => simp
  | case2 a items ih => exact (ih.append_left _).trans (takeRun_perm lt least (a :: items))

end Sorting

end SceneSearch
