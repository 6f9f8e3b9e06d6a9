/-!
# Doubles as exact numbers

A finite double is a signed natural number times a power of two. Rounding, printing and reading are
exact statements about that number, so they start from this view of the bits and use no operation
on floats. The layout is that of binary64: a sign, eleven bits of exponent, fifty-two of fraction.
-/

namespace SceneSearch

/-! ## The view -/

/-- A signed number `± significand * 2 ^ exponent`. -/
structure Dyad where
  /-- The sign. -/
  negative : Bool
  /-- The number before scaling. -/
  significand : Nat
  /-- The power of two that scales it. -/
  exponent : Int
deriving DecidableEq, Repr

/-- What a double stands for. -/
inductive DoubleValue where
  | finite (value : Dyad)
  | infinite (negative : Bool)
  | nan
deriving DecidableEq, Repr

/-- What the bits of a double stand for. -/
def DoubleValue.ofBits (bits : Nat) : DoubleValue :=
  let negative := bits / Nat.pow 2 63 % 2 == 1
  let exponent : Nat := bits / Nat.pow 2 52 % Nat.pow 2 11
  let fraction := bits % Nat.pow 2 52
  if exponent = 2047 then
    if fraction = 0 then .infinite negative else .nan
  else if exponent = 0 then .finite ⟨negative, fraction, -1074⟩
  else .finite ⟨negative, fraction + Nat.pow 2 52, (exponent : Int) - 1075⟩

def DoubleValue.ofFloat (x : Float) : DoubleValue := ofBits x.toBits.toNat

/-! ## Rounding down -/

def Dyad.signed (d : Dyad) : Int := if d.negative then -(d.significand : Int) else d.significand

/-- The largest integer that is not above the number. -/
def Dyad.floor (d : Dyad) : Int :=
  if 0 ≤ d.exponent then d.signed * (Nat.pow 2 d.exponent.toNat : Int)
  else d.signed / (Nat.pow 2 (-d.exponent).toNat : Int)

example : Dyad.floor ⟨true, 5, -1⟩ = -3 := by decide
example : Dyad.floor ⟨false, 5, -1⟩ = 2 := by decide
example : Dyad.floor ⟨true, 3, 2⟩ = -12 := by decide

/-- Why a double has no floor. -/
inductive FloorFault where
  | infinite
  | nan
deriving DecidableEq, Repr

/-- The floor of a double, if it is finite. -/
def floorOf (x : Float) : Except FloorFault Int :=
  match DoubleValue.ofFloat x with
  | .finite value => .ok value.floor
  | .infinite _ => .error .infinite
  | .nan => .error .nan

/-! ## Truth of a number -/

/-- Whether a double counts as nothing: zero of either sign does, an unknown number does not. -/
def isNothing (x : Float) : Bool := x == 0

/-- `x`, or `fallback` where `x` counts as nothing. -/
def orElseFloat (x fallback : Float) : Float := if isNothing x then fallback else x

/-- The sign of a number: one above zero, minus one below, zero otherwise. -/
def signOf (x : Float) : Int := if 0 < x then 1 else if x < 0 then -1 else 0

end SceneSearch
