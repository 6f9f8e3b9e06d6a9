import SceneSearch.Json.Value
import SceneSearch.Number.Literal
import SceneSearch.Number.Shortest

/-!
# Values inside messages

A message about a bad export shows the value that it found, and an id or a name that is no string
is turned into one. Strings are shown quoted inside other values and as they are on their own;
`None`, `True` and `False` stand for null and the truth values. A value that holds an integer with
too many digits, at whatever depth, cannot be shown.
-/

namespace SceneSearch

namespace Json

mutual

/-- A value as a message shows it. -/
def shown? : Json → Option String
  | null => some "None"
  | bool value => some (if value then "True" else "False")
  | int value => integerText? value
  | float value => some (DecimalLayout.plain.render value)
  | string value => some (quoted value)
  | array items => (shownItems? items).map fun texts ↦ "[" ++ ", ".intercalate texts ++ "]"
  | object entries =>
    (shownEntries? entries).map fun texts ↦ "\x7b" ++ ", ".intercalate texts ++ "\x7d"

def shownItems? : List Json → Option (List String)
  | [] => some []
  | v :: rest => do
    let text ← shown? v
    let texts ← shownItems? rest
    pure (text :: texts)

def shownEntries? : List (String × Json) → Option (List String)
  | [] => some []
  | (key, v) :: rest => do
    let text ← shown? v
    let texts ← shownEntries? rest
    pure ((quoted key ++ ": " ++ text) :: texts)

end

/-- A value as a text of its own. -/
def asText? : Json → Option String
  | string value => some value
  | v => v.shown?

/-- The value of a key of an object as a message shows it, where an absent key is null. -/
def shownKey? (v : Json) (key : String) : Option String := ((v.get? key).getD null).shown?

end Json

example : Json.shown? (.array [.string "it's", .bool true, .null]) =
    some "[\"it's\", True, None]" := by rfl

end SceneSearch
