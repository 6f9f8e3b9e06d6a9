import SceneSearch.Query.Symbol
import SceneSearch.Text.Blank

/-!
# Pieces of a query

A query is cut at its slashes into pieces. A slash inside double quotes does not cut, and two
slashes in a row cut once: they are a separator of their own, which asks for direct children. A
piece carries the separator in front of it, so that nothing of the query is lost.
-/

namespace SceneSearch

/-! ## Separators -/

/-- What stands in front of a piece. -/
inductive Separator where
  /-- Nothing: the piece starts the query. -/
  | start
  /-- One slash: the piece is matched at any depth. -/
  | descend
  /-- Two slashes: the piece is matched among the children only. -/
  | direct
deriving DecidableEq, Repr, Inhabited

def Separator.spelling : Separator → List Char
  | start => []
  | descend => ['/']
  | direct => ['/', '/']

/-! ## Cutting -/

/-- A text between separators. -/
structure Piece where
  /-- The separator in front. -/
  separator : Separator
  /-- The text, with its quotes. -/
  text : List Char
deriving DecidableEq, Repr

namespace Piece

/-- Cuts a text. The current piece follows `separator`, `inside` tells whether a quote is open in
it, and `done` is what was read of it, reversed. -/
def cut (separator : Separator) (inside : Bool) (done : List Char) : List Char → List Piece
  | [] => [⟨separator, done.reverse⟩]
  | '"' :: rest => cut separator (!inside) ('"' :: done) rest
  | '/' :: '/' :: rest =>
    if inside then cut separator inside ('/' :: '/' :: done) rest
    else ⟨separator, done.reverse⟩ :: cut .direct false [] rest
  | '/' :: rest =>
    if inside then cut separator inside ('/' :: done) rest
    else ⟨separator, done.reverse⟩ :: cut .descend false [] rest
  | c :: rest => cut separator inside (c :: done) rest

def split (text : String) : List Piece := cut .start false [] text.toList

/-- Pieces written one after the other. -/
def spelling (pieces : List Piece) : List Char :=
  pieces.flatMap fun p ↦ p.separator.spelling ++ p.text

/-- Cutting loses nothing. -/
theorem spelling_cut (separator : Separator) (inside : Bool) (done s : List Char) :
    spelling (cut separator inside done s) = separator.spelling ++ done.reverse ++ s := by
  fun_induction cut separator inside done s <;> simp_all [spelling, Separator.spelling]

theorem spelling_split (text : String) : spelling (split text) = text.toList := by
  simp [split, spelling_cut, Separator.spelling]

theorem cut_ne_nil (separator : Separator) (inside : Bool) (done s : List Char) :
    cut separator inside done s ≠ [] := by
  fun_induction cut separator inside done s <;> simp_all

end Piece

/-! ## The symbol of a piece -/

/-- The symbol at the start of a text, and the rest, blanks around both cut. -/
def splitSymbol (text : List Char) : TypeSymbol × List Char :=
  match trim text with
  | [] => (.any, [])
  | c :: rest =>
    match TypeSymbol.ofChar? c with
    | some symbol => (symbol, trim rest)
    | none => (.any, c :: rest)

example : (Piece.split "a//\"b/c\" /").map (fun p ↦ String.ofList p.text) =
    ["a", "\"b/c\" ", ""] := by decide

end SceneSearch
