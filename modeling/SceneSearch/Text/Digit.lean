/-!
# Decimal digits

A decimal digit is a character of Unicode category Nd. These come in blocks of ten consecutive code
points, one block per script, so the first code point of each block (its zero) determines the set
and the values.
-/

namespace SceneSearch

/-! ## Digits of every script -/

/-- The zeros of all scripts. -/
def digitZeros : List Nat := [
  48, 1632, 1776, 1984, 2406, 2534, 2662, 2790, 2918, 3046, 3174, 3302, 3430, 3558, 3664, 3792,
  3872, 4160, 4240, 6112, 6160, 6470, 6608, 6784, 6800, 6992, 7088, 7232, 7248, 42528, 43216,
  43264, 43472, 43504, 43600, 44016, 65296, 66720, 68912, 69734, 69872, 69942, 70096, 70384,
  70736, 70864, 71248, 71360, 71472, 71904, 72016, 72784, 73040, 73120, 92768, 92864, 93008,
  120782, 120792, 120802, 120812, 120822, 123200, 123632, 125264, 130032]

/-- The value of a decimal digit of any script. -/
def digitValue? (c : Char) : Option Nat :=
  (digitZeros.find? fun first ↦ first ≤ c.toNat && c.toNat < first + 10).map (c.toNat - ·)

/-- Whether `c` is a decimal digit of any script. -/
def isDigit (c : Char) : Bool := (digitValue? c).isSome

/-- The number that a run of digits writes in base ten; any other character counts as a zero. -/
def decimalValue (digits : List Char) : Nat :=
  digits.foldl (fun n c ↦ 10 * n + (digitValue? c).getD 0) 0

/-! ## Small laws -/

theorem isDigit_iff {c : Char} : isDigit c = true ↔ ∃ v, digitValue? c = some v :=
  Option.isSome_iff_exists

@[simp] theorem decimalValue_nil : decimalValue [] = 0 := rfl

theorem decimalValue_append (s : List Char) (c : Char) :
    decimalValue (s ++ [c]) = 10 * decimalValue s + (digitValue? c).getD 0 := by
  simp [decimalValue]

end SceneSearch
