import SceneSearch.Number.Double

/-!
# The shortest decimal of a double

A double is shown with the fewest digits that read back as the same double, and among those with
the digits nearest to it. The reals that round to a double form an interval. A decimal grid with a
point in that interval also has one at the double's lower or upper neighbour on the grid, so for
each number of digits only these two need testing, in exact arithmetic on natural numbers.
-/

namespace SceneSearch

/-! ## The digits -/

/-- A decimal number `digits * 10 ^ exponent`. -/
structure Decimal where
  /-- The digits as one natural number. -/
  digits : Nat
  /-- The power of ten that scales them. -/
  exponent : Int
deriving DecidableEq, Repr

/-- A positive double and the reals that round to it, over a common denominator. -/
structure RoundingInterval where
  /-- Numerator of the double. -/
  value : Nat
  /-- Numerator of the lower end. -/
  low : Nat
  /-- Numerator of the upper end. -/
  high : Nat
  /-- The common denominator. -/
  denominator : Nat
  /-- Whether the two ends round to the double too. -/
  closed : Bool

/-- The interval of a double. Below a power of two the neighbouring double is half as far, and a
tie goes to the even significand. -/
def Dyad.interval (d : Dyad) : RoundingInterval :=
  let m := d.significand
  let up := Nat.pow 2 (d.exponent - 2).toNat
  let below := if m = Nat.pow 2 52 ∧ -1074 < d.exponent then 1 else 2
  { value := 4 * m * up, low := (4 * m - below) * up, high := (4 * m + 2) * up,
    denominator := Nat.pow 2 (2 - d.exponent).toNat, closed := m % 2 == 0 }

namespace RoundingInterval

/-- The power of ten at or below the double. -/
def magnitude (r : RoundingInterval) : Int :=
  if r.denominator ≤ r.value then
    ((Nat.toDigits 10 (r.value / r.denominator)).length : Int) - 1
  else
    -(((List.range 400).find? fun j ↦ r.denominator ≤ r.value * Nat.pow 10 j).getD 0 : Nat)

/-- The point of the interval on the grid of step `10 ^ step` that is nearest to the double; an
exact tie goes to the even digit. -/
def onGrid? (r : RoundingInterval) (step : Int) : Option Decimal :=
  -- one of `up` and `down` is one; with both, only natural numbers are compared
  let up := Nat.pow 10 step.toNat
  let down := Nat.pow 10 (-step).toNat
  let onScale (n : Nat) : Nat := n * up * r.denominator
  let inside (n : Nat) : Bool :=
    if r.closed then r.low * down ≤ onScale n && onScale n ≤ r.high * down
    else r.low * down < onScale n && onScale n < r.high * down
  let lower := r.value * down / (up * r.denominator)
  let upper := lower + 1
  let toLower := r.value * down - onScale lower
  let toUpper := onScale upper - r.value * down
  match inside lower, inside upper with
  | true, true =>
    if toLower < toUpper || (toLower == toUpper && lower % 2 == 0) then some ⟨lower, step⟩
    else some ⟨upper, step⟩
  | true, false => some ⟨lower, step⟩
  | false, true => some ⟨upper, step⟩
  | false, false => none

/-- The shortest decimal in the interval; seventeen digits always suffice. -/
def shortest (r : RoundingInterval) : Decimal :=
  ((List.range 17).findSome? fun (n : Nat) ↦ r.onGrid? (r.magnitude - n)).getD ⟨0, 0⟩

end RoundingInterval

/-! ## The layout -/

/-- How the digits of a double are laid out. -/
structure DecimalLayout where
  /-- The least power of ten of a leading digit that is written positionally. -/
  leastPositional : Int
  /-- The greatest such power. -/
  greatestPositional : Int
  /-- Least number of digits of an exponent. -/
  exponentWidth : Nat
  /-- Text of a positive infinity. -/
  infinity : String
  /-- Text of an unknown number. -/
  nan : String

/-- Positional from a ten-thousandth to below `10 ^ 16`, exponents with a sign and two digits. -/
def DecimalLayout.plain : DecimalLayout := ⟨-4, 15, 2, "inf", "nan"⟩

/-- Zeros in front of `s` up to `width` characters. -/
def padLeft (width : Nat) (s : List Char) : List Char :=
  List.replicate (width - s.length) '0' ++ s

namespace DecimalLayout

/-- `digits * 10 ^ exponent` in positional notation, with at least one digit after the point. -/
def positional (digits : List Char) (exponent : Int) : List Char :=
  if 0 ≤ exponent then digits ++ List.replicate exponent.toNat '0' ++ ['.', '0']
  else
    let places := (-exponent).toNat
    let padded := padLeft (places + 1) digits
    padded.take (padded.length - places) ++ '.' :: padded.drop (padded.length - places)

/-- Digits with a point after the first, and the power of ten of that first digit. -/
def scientific (layout : DecimalLayout) (digits : List Char) (leading : Int) : List Char :=
  let mantissa := match digits with
    | first :: second :: rest => first :: '.' :: second :: rest
    | short => short
  let sign := if leading < 0 then '-' else '+'
  mantissa ++ 'e' :: sign :: padLeft layout.exponentWidth (Nat.toDigits 10 leading.natAbs)

/-- The digits of a decimal without trailing zeros, and the exponent that goes with them. -/
def significant (d : Decimal) : List Char × Int :=
  let all := Nat.toDigits 10 d.digits
  let kept := (all.reverse.dropWhile (· == '0')).reverse
  (kept, d.exponent + (all.length - kept.length : Nat))

def render (layout : DecimalLayout) (x : Float) : String :=
  match DoubleValue.ofFloat x with
  | .nan => layout.nan
  | .infinite negative => if negative then "-" ++ layout.infinity else layout.infinity
  | .finite d =>
    let sign := if d.negative then ['-'] else []
    let body :=
      if d.significand = 0 then ['0', '.', '0']
      else
        let (digits, exponent) := significant d.interval.shortest
        let leading := exponent + digits.length - 1
        if layout.leastPositional ≤ leading ∧ leading ≤ layout.greatestPositional then
          positional digits exponent
        else layout.scientific digits leading
    String.ofList (sign ++ body)

end DecimalLayout

example : DecimalLayout.plain.render 0.1 = "0.1" := by decide +kernel
example : DecimalLayout.plain.render 1e16 = "1e+16" := by decide +kernel
example : DecimalLayout.plain.render (-0.0) = "-0.0" := by decide +kernel

end SceneSearch
