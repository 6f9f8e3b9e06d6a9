/-!
# Character sets by run lengths

The Unicode properties that the text functions need are unions of a few hundred intervals of code
points. Such a set is written as the lengths of its runs: how many code points are outside, how
many are inside, how many are outside again, and so on from code point zero. A run-length table is
short, holds no two overlapping intervals by construction, and is read by one structural recursion.
-/

namespace SceneSearch

/-! ## Reading a run-length table -/

/-- A set of code points as alternating run lengths, a run outside the set first. -/
structure CharacterSet where
  /-- Lengths of the runs: outside, inside, outside, … -/
  runs : List Nat

namespace CharacterSet

/-- Whether position `n`, counted from the start of the runs, falls into an inside run. -/
def covers : List Nat → Nat → Bool
  | gap :: run :: rest, n =>
    if n < gap then false
    else if n < gap + run then true
    else covers rest (n - (gap + run))
  | _, _ => false

/-- Membership of a character. -/
def contains (s : CharacterSet) (c : Char) : Bool := covers s.runs c.toNat

end CharacterSet

end SceneSearch
