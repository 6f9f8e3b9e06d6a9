/-!
# Patterns

A pattern is matched from a position of a text by trial. It may end in several places, which are
tried in order of preference until what follows it in a larger pattern goes on from there. A pattern
can also look at the character before a position, or at the one behind it, without taking it.

A text is searched from the left. Where a match is found, the search goes on behind it, with the
match in view as what stands before.
-/

namespace SceneSearch

/-- A position of a text. -/
structure Cursor where
  /-- What stands before it, the nearest character first. -/
  before : List Char
  /-- What follows. -/
  after : List Char
deriving DecidableEq, Repr

inductive Pattern where
  /-- A text as it is. -/
  | literal (text : List Char)
  /-- Characters of a kind, at least one and as many as possible. -/
  | many (kind : Char → Bool)
  /-- One pattern behind another one. -/
  | andThen (p q : Pattern)
  /-- One pattern, or else another one. -/
  | orElse (p q : Pattern)
  /-- No character of a kind stands before. -/
  | notBehind (kind : Char → Bool)
  /-- No character of a kind follows. -/
  | notAhead (kind : Char → Bool)

namespace Pattern

/-! ## Matching -/

/-- Where one or more characters of a kind may end, the farthest end first. -/
def manyEnds (kind : Char → Bool) (before : List Char) : List Char → List Cursor
  | [] => []
  | c :: rest => if kind c then manyEnds kind (c :: before) rest ++ [⟨c :: before, rest⟩] else []

/-- Where a pattern may end, the preferred end first. -/
def ends : Pattern → Cursor → List Cursor
  | literal text, start =>
    if text.isPrefixOf start.after then
      [⟨text.reverse ++ start.before, start.after.drop text.length⟩]
    else []
  | many kind, start => manyEnds kind start.before start.after
  | andThen p q, start => (p.ends start).flatMap q.ends
  | orElse p q, start => p.ends start ++ q.ends start
  | notBehind kind, start => if start.before.head?.any kind then [] else [start]
  | notAhead kind, start => if start.after.head?.any kind then [] else [start]

/-- The text of the match from a position. -/
def match? (p : Pattern) (start : Cursor) : Option (List Char) :=
  (p.ends start).head?.map fun stop ↦ start.after.take (start.after.length - stop.after.length)

/-! ## Searching a text -/

/-- A part of a text that was searched. -/
inductive Part where
  /-- A character that is in no match. -/
  | kept (c : Char)
  /-- A match. -/
  | matched (text : List Char)
deriving DecidableEq, Repr

/-- The parts of what follows a position, where so many characters are still in the last match. -/
def partsFrom (p : Pattern) (before : List Char) : (left : Nat) → List Char → List Part
  | _, [] => []
  | left + 1, c :: rest => p.partsFrom (c :: before) left rest
  | 0, c :: rest =>
    match p.match? ⟨before, c :: rest⟩ with
    | some (first :: more) => .matched (first :: more) :: p.partsFrom (c :: before) more.length rest
    -- a match that takes nothing counts for nothing
    | _ => .kept c :: p.partsFrom (c :: before) 0 rest

def parts (p : Pattern) (text : List Char) : List Part := p.partsFrom [] 0 text

end Pattern

end SceneSearch
