import SceneSearch.Number.Literal
import SceneSearch.Text.Pattern

/-!
# Modifiers

A modifier is a word of its own outside double quotes: two dashes and `f`, `fe`, `h`, `a`, or a
number with or without an `e`. The digits may be of any script. Another character that is glued to
such a word makes it part of the name query; a double quote does not, since words end there.
-/

namespace SceneSearch

inductive Modifier where
  /-- `--f`: stop at the first match. -/
  | firstOverall
  /-- `--fe`: the first match in each scope. -/
  | firstEach
  /-- `--h`: hidden layers only. -/
  | hiddenOnly
  /-- `--a`: hidden layers too. -/
  | allLayers
  /-- `--N`: the Nth match in reading order, the last one for zero. -/
  | index (n : Nat)
  /-- `--Ne`: the Nth match in each scope. -/
  | indexEach (n : Nat)
deriving DecidableEq, Repr

namespace Modifier

/-! ## Words -/

/-- What stands behind the two dashes. -/
def bodyPattern : Pattern :=
  .orElse (.literal ['f', 'e']) <| .orElse (.literal ['f']) <| .orElse (.literal ['h']) <|
    .orElse (.literal ['a']) <| .orElse (.andThen (.many isDigit) (.literal ['e'])) (.many isDigit)

/-- A modifier, with nothing but blanks next to it. -/
def pattern : Pattern :=
  .andThen (.notBehind (!isBlank ·)) <| .andThen (.literal ['-', '-']) <|
    .andThen bodyPattern (.notAhead (!isBlank ·))

/-- The modifier that stands behind the two dashes; a number may have too many digits. -/
def ofBody (body : List Char) : Except TooManyDigits Modifier :=
  if body = ['f'] then .ok firstOverall
  else if body = ['f', 'e'] then .ok firstEach
  else if body = ['h'] then .ok hiddenOnly
  else if body = ['a'] then .ok allLayers
  else if body.getLast? = some 'e' then (naturalOfDigits body.dropLast).map indexEach
  else (naturalOfDigits body).map index

/-! ## Texts -/

/-- A text without its modifiers, and these in order. -/
structure Extraction where
  /-- What is left. -/
  text : List Char
  /-- The modifiers that were taken out. -/
  modifiers : List Modifier
deriving DecidableEq, Repr

/-- The extraction of a text with one part in front. -/
def takePart (part : Pattern.Part) (rest : Except TooManyDigits Extraction) :
    Except TooManyDigits Extraction :=
  match part with
  | .kept c => rest.map fun r ↦ { r with text := c :: r.text }
  | .matched text => do
    -- of several bad numbers the first one is refused
    let modifier ← ofBody (text.drop 2)
    let r ← rest
    pure { r with modifiers := modifier :: r.modifiers }

/-- Takes the modifiers out of a text without quotes. -/
def takeFromChunk (chunk : List Char) : Except TooManyDigits Extraction :=
  (pattern.parts chunk).foldr takePart (.ok ⟨[], []⟩)

/-- The parts of a text between its double quotes. -/
def chunks (text : List Char) : List (List Char) := text.splitOn '"'

/-- Takes the modifiers out of every other chunk, the first one if `outside`, and puts the quotes
back. -/
def takeFromChunks (outside : Bool) : List (List Char) → Except TooManyDigits Extraction
  | [] => .ok ⟨[], []⟩
  | [last] => if outside then takeFromChunk last else .ok ⟨last, []⟩
  | chunk :: rest => do
    let first ← if outside then takeFromChunk chunk else .ok ⟨chunk, []⟩
    let r ← takeFromChunks (!outside) rest
    pure ⟨first.text ++ '"' :: r.text, first.modifiers ++ r.modifiers⟩

/-- Takes the modifiers out of a text, and cuts the blanks at its ends. -/
def extract (text : List Char) : Except TooManyDigits Extraction :=
  (takeFromChunks true (chunks text)).map fun r ↦ { r with text := trim r.text }

/-! ## The last index -/

/-- The number of the last `--N`. -/
def lastIndex? (modifiers : List Modifier) : Option Nat :=
  modifiers.foldl (fun found m ↦ match m with | index n => some n | _ => found) none

/-- The number of the last `--Ne`. -/
def lastIndexEach? (modifiers : List Modifier) : Option Nat :=
  modifiers.foldl (fun found m ↦ match m with | indexEach n => some n | _ => found) none

end Modifier

end SceneSearch
