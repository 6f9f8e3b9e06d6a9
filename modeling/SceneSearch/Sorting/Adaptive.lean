import SceneSearch.Sorting.Merge
import SceneSearch.Sorting.Run

/-!
# Adaptive sorting

Comparing two nodes is not cheap, and lists of candidates often hold long stretches that are sorted
already. So a list is cut into runs, and neighbouring runs are joined. Which are joined first is
decided by the *power* of the boundary between two runs: the depth at which halving the whole list
again and again parts their middles. A boundary of high power is closed before a later one of lower
power is passed.

The result is a permutation for any comparison whatever. For a strict weak order it is the only
sorted one that keeps equal items in order; a comparison that is not even transitive, as unknown
numbers can make it, still gives a definite result.
-/

namespace SceneSearch

namespace Sorting

variable {α : Type} (lt : α → α → Bool)

/-! ## Boundaries -/

/-- The first of the binary digits of `a / n` and `b / n` that differs, counted from one at the
units. There are at most `fuel` common ones. -/
def firstDifference : (fuel n a b : Nat) → Nat
  | 0, _, _, _ => 0
  | fuel + 1, n, a, b =>
    if a / n = b / n then firstDifference fuel n (2 * a) (2 * b) + 1 else 1

/-- The power of the boundary between a run of `left` items that begins at `start` and the run of
`right` items after it, in a list of `n` items. -/
def boundaryPower (n start left right : Nat) : Nat :=
  firstDifference n n (2 * start + left) (2 * start + 2 * left + right)

/-! ## Joining all runs -/

/-- A run that waits to be joined with what follows. -/
structure Waiting (α : Type) where
  /-- The run. -/
  run : List α
  /-- The power of the boundary after it. -/
  power : Nat

/-- The items of waiting runs, the first of which lies furthest to the right. -/
def waitingItems (waiting : List (Waiting α)) : List α :=
  (waiting.reverse.map Waiting.run).flatten

theorem waitingItems_cons (top : Waiting α) (waiting : List (Waiting α)) :
    waitingItems (top :: waiting) = waitingItems waiting ++ top.run := by
  simp [waitingItems]

/-- Joins `run` with the waiting runs to the left of it as long as their boundaries have more than
`power`. Gives the threshold for galloping, the joined run and the runs that go on to wait. -/
def collapse (power : Nat) (threshold : Nat) (run : List α) :
    List (Waiting α) → Nat × List α × List (Waiting α)
  | [] => (threshold, run, [])
  | top :: waiting =>
    if power < top.power then
      let (joined, threshold) := joinRuns lt threshold top.run run
      collapse power threshold joined waiting
    else (threshold, run, top :: waiting)

theorem collapse_perm (power threshold : Nat) (run : List α) (waiting : List (Waiting α)) :
    (waitingItems (collapse lt power threshold run waiting).2.2 ++
      (collapse lt power threshold run waiting).2.1).Perm (waitingItems waiting ++ run) := by
  induction waiting generalizing threshold run with
  | nil => exact List.Perm.refl _
  | cons top waiting ih =>
    rw [collapse]
    split
    · refine (ih ..).trans ?_
      rw [waitingItems_cons, List.append_assoc]
      exact (joinRuns_perm ..).append_left _
    · exact List.Perm.refl _

/-- Joins all runs that are left, from the right. A run between two others is joined with the
shorter of them. -/
def joinWaiting (threshold : Nat) (run : List α) : List (Waiting α) → List α
  | [] => run
  | [top] => (joinRuns lt threshold top.run run).1
  | top :: next :: waiting =>
    -- `top` lies between `next` and `run`
    if next.run.length < run.length then
      let (joined, threshold) := joinRuns lt threshold next.run top.run
      joinWaiting threshold run (⟨joined, next.power⟩ :: waiting)
    else
      let (joined, threshold) := joinRuns lt threshold top.run run
      joinWaiting threshold joined (next :: waiting)
termination_by waiting => waiting.length

theorem joinWaiting_perm (threshold : Nat) (run : List α) (waiting : List (Waiting α)) :
    (joinWaiting lt threshold run waiting).Perm (waitingItems waiting ++ run) := by
  fun_induction joinWaiting lt threshold run waiting with
  | case1 => exact List.Perm.refl _
  | case2 threshold run top => simpa [waitingItems] using joinRuns_perm lt threshold top.run run
  | case3 threshold run top next waiting _ joined threshold' eq ih =>
    have joined_perm := joinRuns_perm lt threshold next.run top.run
    rw [eq] at joined_perm
    refine ih.trans ?_
    simp only [waitingItems_cons, List.append_assoc]
    rw [← List.append_assoc next.run]
    exact (joined_perm.append_right run).append_left _
  | case4 threshold run top next waiting _ joined threshold' eq ih =>
    have joined_perm := joinRuns_perm lt threshold top.run run
    rw [eq] at joined_perm
    refine ih.trans ?_
    simp only [waitingItems_cons, List.append_assoc]
    exact (joined_perm.append_left _).append_left _

/-- Joins the runs of a list of `n` items. `run` begins at `start`, after the runs that wait. -/
def joinAll (n threshold start : Nat) (run : List α) (waiting : List (Waiting α)) :
    List (List α) → List α
  | [] => joinWaiting lt threshold run waiting
  | next :: runs =>
    let power := boundaryPower n start run.length next.length
    let (threshold, joined, waiting) := collapse lt power threshold run waiting
    joinAll n threshold (start + run.length) next (⟨joined, power⟩ :: waiting) runs

theorem joinAll_perm (n threshold start : Nat) (run : List α) (waiting : List (Waiting α))
    (runs : List (List α)) :
    (joinAll lt n threshold start run waiting runs).Perm
      (waitingItems waiting ++ run ++ runs.flatten) := by
  induction runs generalizing threshold start run waiting with
  | nil => simpa [joinAll] using joinWaiting_perm lt threshold run waiting
  | cons next runs ih =>
    rw [joinAll]
    refine (ih ..).trans ?_
    rw [waitingItems_cons, List.flatten_cons, ← List.append_assoc _ next]
    exact ((collapse_perm ..).append_right next).append_right _

end Sorting

/-- Sorts a list by a comparison. -/
def sortBy {α : Type} (lt : α → α → Bool) (items : List α) : List α :=
  match Sorting.runs lt (Sorting.leastRun items.length) items with
  | [] => []
  | run :: runs => Sorting.joinAll lt items.length Sorting.Merge.leastLeap 0 run [] runs

/-- Sorting permutes. -/
theorem sortBy_perm {α : Type} (lt : α → α → Bool) (items : List α) :
    (sortBy lt items).Perm items := by
  have all := Sorting.runs_perm lt (Sorting.leastRun items.length) items
  rw [sortBy]
  split
  · rename_i empty
    rw [empty] at all
    exact all
  · rename_i run runs cut
    rw [cut] at all
    refine (Sorting.joinAll_perm lt _ _ _ run [] runs).trans ?_
    simpa [Sorting.waitingItems] using all

end SceneSearch
