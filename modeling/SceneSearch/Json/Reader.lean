import SceneSearch.Json.Value
import SceneSearch.Number.Literal

/-!
# Reading JSON

A reader for JSON texts that also takes the three names of numbers that have no digits: `NaN`,
`Infinity` and `-Infinity`. Everything else is strict: no comments, no trailing commas, no leading
zeros, no control characters inside strings. A text may fail in two ways, by its form or by an
integer with too many digits, and whichever comes first in the text is reported.

The reader walks the text from left to right. Its recursion is bounded by twice the length of the
text, since a value takes at least one character and at most two steps of the reader.
-/

namespace SceneSearch

/-- Why a text cannot be read. -/
inductive JsonFault where
  | malformed
  | integerTooLong (cause : TooManyDigits)
deriving DecidableEq, Repr

namespace JsonReader

/-- What a reader returns: a value and the rest of the text. -/
abbrev Result (α : Type) := Except JsonFault (α × List Char)

/-! ## White space and digits -/

def isSpace (c : Char) : Bool := c == ' ' || c == '\t' || c == '\n' || c == '\r'

def skip (s : List Char) : List Char := s.dropWhile isSpace

/-- The digits of a number are ASCII digits only. -/
def isAsciiDigit (c : Char) : Bool := '0' ≤ c && c ≤ '9'

/-- The value of a hexadecimal digit of either case. -/
def hexValue? (c : Char) : Option Nat :=
  if '0' ≤ c && c ≤ '9' then some (c.toNat - 48)
  else if 'a' ≤ c && c ≤ 'f' then some (c.toNat - 87)
  else if 'A' ≤ c && c ≤ 'F' then some (c.toNat - 55)
  else none

/-- The number that four hexadecimal digits write. -/
def hexUnit? (a b c d : Char) : Option Nat := do
  let a ← hexValue? a
  let b ← hexValue? b
  let c ← hexValue? c
  let d ← hexValue? d
  pure (((a * 16 + b) * 16 + c) * 16 + d)

/-! ## Strings -/

/-- The character of a one-letter escape. -/
def simpleEscape? : Char → Option Char
  | '"' => some '"'
  | '\\' => some '\\'
  | '/' => some '/'
  | 'b' => some '\x08'
  | 'f' => some '\x0c'
  | 'n' => some '\n'
  | 'r' => some '\r'
  | 't' => some '\t'
  | _ => none

def isHighUnit (n : Nat) : Bool := 0xD800 ≤ n && n < 0xDC00

def isLowUnit (n : Nat) : Bool := 0xDC00 ≤ n && n < 0xE000

/-- The character of a unit; a half of a pair on its own is replaced. -/
def charOfUnit (n : Nat) : Char :=
  if isHighUnit n || isLowUnit n then Char.ofNat 0xFFFD else Char.ofNat n

/-- Reads a string up to its closing mark; `done` is what was read, reversed. -/
def stringBody (done : List Char) : List Char → Result String
  | '"' :: rest => .ok (String.ofList done.reverse, rest)
  -- two escapes in a row may be the halves of one character; else the second is read once more
  | '\\' :: 'u' :: a :: b :: c :: d :: '\\' :: 'u' :: e :: f :: g :: h :: rest =>
    match hexUnit? a b c d with
    | none => .error .malformed
    | some first =>
      if isHighUnit first then
        match hexUnit? e f g h with
        | none => .error .malformed
        | some second =>
          if isLowUnit second then
            stringBody (Char.ofNat (0x10000 + (first - 0xD800) * 0x400 + (second - 0xDC00)) :: done)
              rest
          else stringBody (charOfUnit first :: done) ('\\' :: 'u' :: e :: f :: g :: h :: rest)
      else stringBody (charOfUnit first :: done) ('\\' :: 'u' :: e :: f :: g :: h :: rest)
  | '\\' :: 'u' :: a :: b :: c :: d :: rest =>
    match hexUnit? a b c d with
    | none => .error .malformed
    | some unit => stringBody (charOfUnit unit :: done) rest
  | '\\' :: c :: rest =>
    match simpleEscape? c with
    | none => .error .malformed
    | some image => stringBody (image :: done) rest
  | c :: rest => if c.toNat < 0x20 then .error .malformed else stringBody (c :: done) rest
  | [] => .error .malformed

/-! ## Numbers -/

/-- The digits after the point of a number, if it has a point and a digit after it. -/
def fractionPart (s : List Char) : List Char × List Char :=
  match s with
  | '.' :: rest =>
    let digits := rest.takeWhile isAsciiDigit
    if digits.isEmpty then ([], s) else (digits, rest.dropWhile isAsciiDigit)
  | _ => ([], s)

/-- The exponent of a number, if it has one with at least one digit. -/
def exponentPart (s : List Char) : Option Int × List Char :=
  match s with
  | e :: rest =>
    if e == 'e' || e == 'E' then
      let (negative, body) : Bool × List Char := match rest with
        | '-' :: body => (true, body)
        | '+' :: body => (false, body)
        | body => (false, body)
      let digits := body.takeWhile isAsciiDigit
      if digits.isEmpty then (none, s)
      else
        let size : Int := decimalValue digits
        (some (if negative then -size else size), body.dropWhile isAsciiDigit)
    else (none, s)
  | [] => (none, s)

/-- Reads a number whose sign has been read. -/
def number (negative : Bool) (s : List Char) : Result Json :=
  let (whole, rest) : List Char × List Char := match s with
    | '0' :: rest => (['0'], rest)
    | _ => (s.takeWhile isAsciiDigit, s.dropWhile isAsciiDigit)
  if whole.isEmpty then .error .malformed
  else
    let (places, rest) := fractionPart rest
    let (exponent, rest) := exponentPart rest
    if places.isEmpty && exponent.isNone then
      match naturalOfDigits whole with
      | .error cause => .error (.integerTooLong cause)
      | .ok n => .ok (.int (if negative then -(n : Int) else n), rest)
    else
      let mantissa := decimalValue (whole ++ places)
      .ok (.float (floatOfDecimal negative mantissa (exponent.getD 0 - places.length)), rest)

/-! ## Values -/

/-- The rest of the text after a fixed word. -/
def word? (w : List Char) (s : List Char) : Option (List Char) :=
  if w.isPrefixOf s then some (s.drop w.length) else none

/-- The words that stand for a value, with their values. -/
def words : List (List Char × Json) :=
  [("null".toList, .null), ("true".toList, .bool true), ("false".toList, .bool false),
    ("NaN".toList, .float (0 / 0)), ("Infinity".toList, .float (1 / 0)),
    ("-Infinity".toList, .float (-1 / 0))]

def scalar (s : List Char) : Result Json :=
  match words.findSome? fun w ↦ (word? w.1 s).map (w.2, ·) with
  | some found => .ok found
  | none =>
    match s with
    | '-' :: rest => number true rest
    | _ => number false s

mutual

/-- Reads a value that starts at the first character. -/
def value : Nat → List Char → Result Json
  | 0, _ => .error .malformed
  | fuel + 1, s =>
    match s with
    | '"' :: rest => (stringBody [] rest).map fun r ↦ (.string r.1, r.2)
    | '[' :: rest =>
      match skip rest with
      | ']' :: rest => .ok (.array [], rest)
      | rest => items fuel [] rest
    | '{' :: rest =>
      match skip rest with
      | '}' :: rest => .ok (.object [], rest)
      | rest => entries fuel [] rest
    | s => scalar s

/-- Reads the items of an array; `done` are those that were read, reversed. -/
def items : Nat → List Json → List Char → Result Json
  | 0, _, _ => .error .malformed
  | fuel + 1, done, s =>
    match value fuel s with
    | .error e => .error e
    | .ok (item, rest) =>
      match skip rest with
      | ',' :: rest => items fuel (item :: done) (skip rest)
      | ']' :: rest => .ok (.array (item :: done).reverse, rest)
      | _ => .error .malformed

/-- Reads the entries of an object; `done` are those that were read. -/
def entries : Nat → List (String × Json) → List Char → Result Json
  | 0, _, _ => .error .malformed
  | fuel + 1, done, s =>
    match s with
    | '"' :: rest =>
      match stringBody [] rest with
      | .error e => .error e
      | .ok (key, rest) =>
        match skip rest with
        | ':' :: rest =>
          match value fuel (skip rest) with
          | .error e => .error e
          | .ok (v, rest) =>
            match skip rest with
            | ',' :: rest => entries fuel (Json.setEntry key v done) (skip rest)
            | '}' :: rest => .ok (.object (Json.setEntry key v done), rest)
            | _ => .error .malformed
        | _ => .error .malformed
    | _ => .error .malformed

end

end JsonReader

/-- Reads a JSON text: one value and nothing else but white space. -/
def Json.parse (text : String) : Except JsonFault Json :=
  let s := text.toList
  match JsonReader.value (2 * s.length + 2) (JsonReader.skip s) with
  | .error e => .error e
  | .ok (v, rest) => if (JsonReader.skip rest).isEmpty then .ok v else .error .malformed

end SceneSearch
