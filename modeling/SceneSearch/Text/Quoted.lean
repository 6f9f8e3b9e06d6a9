import SceneSearch.Text.Printable

/-!
# Quoted text

How a text is shown inside a message, a log line or a plan description: between quotation marks, on
one line, with every character that cannot be seen written as an escape. Single quotation marks are
used unless the text has a single one and no double one, so that the common apostrophe needs no
escape.
-/

namespace SceneSearch

/-! ## Hexadecimal escapes -/

/-- The lower-case hexadecimal digit of a value below sixteen. -/
def hexDigit (n : Nat) : Char := if n < 10 then Char.ofNat (48 + n) else Char.ofNat (87 + n)

/-- The `width` last hexadecimal digits of `n`. -/
def hexDigits : Nat → Nat → List Char
  | 0, _ => []
  | width + 1, n => hexDigits width (n / 16) ++ [hexDigit (n % 16)]

/-! ## Quoting -/

namespace Quoted

/-- The quotation mark for a text: double if it has a single mark and no double one. -/
def mark (s : List Char) : Char :=
  if s.contains '\'' && !s.contains '"' then '"' else '\''

/-- The escape of a character that is not printable, in the shortest of three widths. -/
def escape (c : Char) : List Char :=
  let n := c.toNat
  if n < 0x100 then '\\' :: 'x' :: hexDigits 2 n
  else if n < 0x10000 then '\\' :: 'u' :: hexDigits 4 n
  else '\\' :: 'U' :: hexDigits 8 n

/-- What one character becomes between two marks. -/
def encodeChar (mark c : Char) : List Char :=
  if c = mark || c = '\\' then ['\\', c]
  else if c = '\n' then ['\\', 'n']
  else if c = '\r' then ['\\', 'r']
  else if c = '\t' then ['\\', 't']
  else if isPrintable c then [c]
  else escape c

/-- The text between its marks. -/
def encode (s : List Char) : List Char :=
  let mark := mark s
  mark :: s.flatMap (encodeChar mark) ++ [mark]

end Quoted

/-- `s` as it is shown inside a message. -/
def quoted (s : String) : String := String.ofList (Quoted.encode s.toList)

example : quoted "say \"it\"" = "'say \"it\"'" := by decide
example : quoted "it's" = "\"it's\"" := by decide
example : quoted "a\\b\tc\x00" = "'a\\\\b\\tc\\x00'" := by decide

end SceneSearch
