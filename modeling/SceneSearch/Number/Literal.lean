import SceneSearch.Text.Blank
import SceneSearch.Text.Digit
import SceneSearch.Text.Quoted

/-!
# Reading numbers

The integers and doubles that a text writes. Reading an integer takes time quadratic in its number
of digits, so a text with more digits than a fixed limit is refused, leading zeros included. An
integer with more digits than that is not written down either.
-/

namespace SceneSearch

/-! ## The limit -/

/-- The greatest number of digits that the text of an integer may have. -/
def digitLimit : Nat := 4300

/-- The refusal of an integer with too many digits. -/
structure TooManyDigits where
  /-- How many digits the text has. -/
  count : Nat
deriving DecidableEq, Repr

def TooManyDigits.message (e : TooManyDigits) : String :=
  "Exceeds the limit (" ++ toString digitLimit ++
    " digits) for integer string conversion: value has " ++ toString e.count ++
    " digits; use sys.set_int_max_str_digits() to increase the limit"

/-- The number that a run of digits writes, if it is not too long. -/
def naturalOfDigits (digits : List Char) : Except TooManyDigits Nat :=
  if digitLimit < digits.length then .error ⟨digits.length⟩ else .ok (decimalValue digits)

theorem naturalOfDigits_eq_ok {digits : List Char} (h : digits.length ≤ digitLimit) :
    naturalOfDigits digits = .ok (decimalValue digits) := by
  rw [naturalOfDigits, if_neg (Nat.not_lt.mpr h)]

theorem naturalOfDigits_eq_error {digits : List Char} (h : digitLimit < digits.length) :
    naturalOfDigits digits = .error ⟨digits.length⟩ := by
  rw [naturalOfDigits, if_pos h]

/-- The text of an integer, if that has not too many digits. -/
def integerText? (n : Int) : Option String :=
  if n.natAbs < Nat.pow 10 digitLimit then some (toString n) else none

/-- The wording of the refusal to write an integer with too many digits. -/
def unwritableInteger : String :=
  "Exceeds the limit (" ++ toString digitLimit ++
    " digits) for integer string conversion; use sys.set_int_max_str_digits() to increase the limit"

theorem integerText?_isSome_iff {n : Int} :
    (integerText? n).isSome ↔ n.natAbs < Nat.pow 10 digitLimit := by
  rw [integerText?]
  split
  · rename_i h
    exact iff_of_true rfl h
  · rename_i h
    exact iff_of_false Bool.false_ne_true h

/-! ## Integers -/

/-- Why a text is no integer. -/
inductive IntegerFault where
  | tooLong (cause : TooManyDigits)
  | malformed (text : String)
deriving DecidableEq, Repr

/-- How much of a refused text, as it is quoted, its refusal shows. -/
def shownLiteralLimit : Nat := 200

/-- The wording of the refusal. A long text is shown without its end. -/
def IntegerFault.message : IntegerFault → String
  | .tooLong cause => cause.message
  | .malformed text =>
    "invalid literal for int() with base 10: " ++
      String.ofList ((quoted text).toList.take shownLiteralLimit)

/-- Blanks that may surround an integer: all but the information separators. -/
def isIntegerBlank (c : Char) : Bool := isBlank c && !(0x1C ≤ c.toNat && c.toNat ≤ 0x1F)

/-- The digits at the start of `s`, single underscores between them dropped, and what follows. -/
def takeDigits : List Char → List Char × List Char
  | [] => ([], [])
  | [c] => if isDigit c then ([c], []) else ([], [c])
  | c :: d :: rest =>
    if !isDigit c then ([], c :: d :: rest)
    else
      let (digits, after) := takeDigits (d :: rest)
      if !digits.isEmpty then (c :: digits, after)
      else if d = '_' then
        -- an underscore without a digit behind it is not taken
        let (digits, after) := takeDigits rest
        if digits.isEmpty then ([c], d :: rest) else (c :: digits, after)
      else ([c], d :: rest)

/-- Reads an integer in base ten: blanks, a sign, digits of any script with single underscores
between them, blanks. -/
def integerOfText (text : String) : Except IntegerFault Int :=
  let start := text.toList.dropWhile isIntegerBlank
  let (negative, body) : Bool × List Char := match start with
    | '-' :: rest => (true, rest)
    | '+' :: rest => (false, rest)
    | rest => (false, rest)
  let (digits, after) := takeDigits body
  let value (n : Nat) : Int := if negative then -(n : Int) else n
  if digits.isEmpty || after.head? == some '_' then .error (.malformed text)
  else
    match naturalOfDigits digits with
    | .error cause => .error (.tooLong cause)
    | .ok n => if after.all isIntegerBlank then .ok (value n) else .error (.malformed text)

/-! ## Whole numbers -/

/-- Text without its underscores, none of which may stand at an end or beside another one. -/
def dropUnderscores? (s : List Char) : Option (List Char) :=
  let neighbours := s.zip (s.drop 1)
  if s.head? == some '_' || s.getLast? == some '_' || neighbours.contains ('_', '_') then none
  else some (s.filter (· ≠ '_'))

/-- Text without a decimal point that zeros follow, at least one and nothing else. -/
def dropEmptyFraction (s : List Char) : List Char :=
  match s.dropWhile (· ≠ '.') with
  | '.' :: fraction =>
    if !fraction.isEmpty && fraction.all (· = '0') then s.takeWhile (· ≠ '.') else s
  | _ => s

/-- Text without the zeros and underscores at its start. Its last character stays. -/
def dropPadding : List Char → List Char
  | c :: d :: rest => if c = '0' || c = '_' then dropPadding (d :: rest) else c :: d :: rest
  | s => s

/-- The number that the ten usual digits write, without a zero in front of other digits. -/
def naturalOfText? (digits : List Char) : Option Nat :=
  if digits.isEmpty || !digits.all Char.isDigit then none
  else if digits.head? == some '0' && digits.length ≠ 1 then none
  else (naturalOfDigits digits).toOption

/-- Reads a whole number as a setting is written: blanks, a sign, a number, a fraction of zeros,
blanks. The number starts with a digit. If that is a zero, it is padding together with the zeros
and underscores after it, and the minus sign may follow it if there is none in front. Among the
other digits single underscores may stand. Only these digits count towards the limit. -/
def wholeOfText? (text : String) : Option Int := do
  let start := text.toList.dropWhile isIntegerBlank
  let (negative, body) ← match (start.reverse.dropWhile isIntegerBlank).reverse with
    -- a minus sign of the number itself may follow no other sign
    | '+' :: '-' :: _ => none
    | '+' :: rest => some (false, rest)
    | '-' :: rest => some (true, rest)
    | rest => some (false, rest)
  let number := dropEmptyFraction body
  guard (number.head?.any Char.isDigit)
  let unpadded := if number.head? == some '0' then dropPadding number else number
  match ← dropUnderscores? (if negative then '-' :: unpadded else unpadded) with
  | '-' :: digits => (naturalOfText? digits).map fun n ↦ -(n : Int)
  | digits => (naturalOfText? digits).map fun n ↦ (n : Int)

/-! ## Doubles -/

/-- The double nearest to `± mantissa * 10 ^ exponent`. Numbers whose magnitude is plainly outside
the range of doubles are not scaled. -/
def floatOfDecimal (negative : Bool) (mantissa : Nat) (exponent : Int) : Float :=
  let magnitude : Int := ((Nat.toDigits 10 mantissa).length : Int) + exponent
  let size : Float :=
    if mantissa = 0 || magnitude < -400 then 0
    else if 400 < magnitude then 1 / 0
    else Float.ofScientific mantissa (exponent < 0) exponent.natAbs
  if negative then -size else size

/-- The double nearest to an integer, if it is in range. -/
def floatOfInt? (n : Int) : Option Float :=
  let x := floatOfDecimal (n < 0) n.natAbs 0
  if x.isInf then none else some x

example : integerOfText " -1_000 " = .ok (-1000) := by rfl
example : integerOfText "1__0" = .error (.malformed "1__0") := by rfl
example : wholeOfText? " +1_0.00 " = some 10 := by decide +kernel
example : wholeOfText? "-0__1_0" = some (-10) := by decide +kernel
example : wholeOfText? "0_-1" = some (-1) := by decide +kernel
example : wholeOfText? "0-01" = none := by decide +kernel
example : wholeOfText? "1." = none := by decide +kernel

end SceneSearch
