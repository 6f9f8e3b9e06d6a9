import SceneSearch.Json.Value
import SceneSearch.Number.Shortest
import SceneSearch.Text.Quoted

/-!
# Writing JSON

JSON texts in ASCII, on one line or indented. Characters outside the visible ASCII range are
written as escapes of their sixteen-bit units.
-/

namespace SceneSearch

/-! ## Strings and numbers -/

namespace JsonWriter

/-- The escape of a sixteen-bit unit. -/
def unitEscape (n : Nat) : List Char := '\\' :: 'u' :: hexDigits 4 n

/-- What one character of a string becomes. -/
def encodeChar (c : Char) : List Char :=
  let n := c.toNat
  if c = '"' then ['\\', '"']
  else if c = '\\' then ['\\', '\\']
  else if c = '\n' then ['\\', 'n']
  else if c = '\r' then ['\\', 'r']
  else if c = '\t' then ['\\', 't']
  else if c = '\x08' then ['\\', 'b']
  else if c = '\x0c' then ['\\', 'f']
  else if 0x20 ≤ n && n < 0x7F then [c]
  else if n < 0x10000 then unitEscape n
  else
    unitEscape (0xD800 + (n - 0x10000) / 0x400) ++ unitEscape (0xDC00 + (n - 0x10000) % 0x400)

/-- A string between its marks. -/
def string (s : String) : String :=
  String.ofList ('"' :: s.toList.flatMap encodeChar ++ ['"'])

/-- Doubles are written by their shortest decimal. -/
def floatLayout : DecimalLayout := { DecimalLayout.plain with infinity := "Infinity", nan := "NaN" }

/-! ## One line -/

mutual

def compact : Json → String
  | .null => "null"
  | .bool value => if value then "true" else "false"
  | .int value => toString value
  | .float value => floatLayout.render value
  | .string value => string value
  | .array items => "[" ++ ",".intercalate (compactItems items) ++ "]"
  | .object entries => "\x7b" ++ ",".intercalate (compactEntries entries) ++ "\x7d"

def compactItems : List Json → List String
  | [] => []
  | v :: rest => compact v :: compactItems rest

def compactEntries : List (String × Json) → List String
  | [] => []
  | (key, v) :: rest => (string key ++ ":" ++ compact v) :: compactEntries rest

end

/-! ## Indented -/

/-- Lines between brackets, one level deeper than `depth`. -/
def block (depth : Nat) (opening closing : String) (lines : List String) : String :=
  if lines.isEmpty then opening ++ closing
  else
    let margin (d : Nat) : String := String.ofList (List.replicate (2 * d) ' ')
    opening ++ "\n" ++ ",\n".intercalate (lines.map (margin (depth + 1) ++ ·)) ++ "\n" ++
      margin depth ++ closing

mutual

/-- A value over several lines, two spaces a level. -/
def indented (depth : Nat) : Json → String
  | .array items => block depth "[" "]" (indentedItems (depth + 1) items)
  | .object entries => block depth "\x7b" "\x7d" (indentedEntries (depth + 1) entries)
  | .null => "null"
  | .bool value => if value then "true" else "false"
  | .int value => toString value
  | .float value => floatLayout.render value
  | .string value => string value

def indentedItems (depth : Nat) : List Json → List String
  | [] => []
  | v :: rest => indented depth v :: indentedItems depth rest

def indentedEntries (depth : Nat) : List (String × Json) → List String
  | [] => []
  | (key, v) :: rest => (string key ++ ": " ++ indented depth v) :: indentedEntries depth rest

end

end JsonWriter

def Json.render (v : Json) : String := JsonWriter.compact v

def Json.pretty (v : Json) : String := JsonWriter.indented 0 v

end SceneSearch
