/-!
# Counting by halving

How many items at the start of a list satisfy a condition, found with few questions. The answers
are expected to be yes up to a point and no from there on. If they are not, the count depends on
which items are asked about, so this is laid down too.
-/

namespace SceneSearch

namespace Sorting

variable {α : Type}

/-- The end of a list from which a search comes. -/
inductive Side where
  | front
  | back
deriving DecidableEq, Repr, Inhabited

/-- The middle of `n` items. Of two middle items it is the one further from where the search comes
from, for a search from the back seen in the reversed list. -/
def Side.middle : Side → Nat → Nat
  | front, n => n / 2
  | back, n => (n - 1) / 2

theorem Side.middle_lt (side : Side) {n : Nat} (pos : 0 < n) : side.middle n < n := by
  cases side <;> simp only [middle] <;> omega

/-- How many items at the start of a list satisfy `p`. -/
def bisect (side : Side) (p : α → Bool) (items : List α) : Nat :=
  if pos : 0 < items.length then
    let half := side.middle items.length
    have := side.middle_lt pos
    if p items[half] then half + 1 + bisect side p (items.drop (half + 1))
    else bisect side p (items.take half)
  else 0
termination_by items.length
decreasing_by
  · simp only [List.length_drop]
    omega
  · simp only [List.length_take]
    omega

/-- Goes on with strides of double length while they end at an item that satisfies `p`, then halves
the last one. The first `known` items count; the next one asked about is at `next`. -/
def stride (side : Side) (p : α → Bool) (items : List α) (known next : Nat) : Nat :=
  if within : next < items.length then
    if p items[next] then stride side p items (next + 1) (2 * next + 1)
    else known + bisect side p ((items.take next).drop known)
  else known + bisect side p (items.drop known)
termination_by items.length - next

/-- How many items at the start of a list satisfy `p`, with few questions if they are few. -/
def gallop (side : Side) (p : α → Bool) : List α → Nat
  | [] => 0
  | a :: rest => if p a then stride side p (a :: rest) 1 1 else 0

end Sorting

end SceneSearch
