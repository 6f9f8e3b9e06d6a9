/-!
# Paths

Paths are taken in their plain form, in which repeated slashes and single dots are dropped. Double
dots stay: what they lead to depends on what is on the disk.
-/

namespace SceneSearch

/-- A path in its plain form. -/
structure PlainPath where
  /-- What an absolute path starts with; nothing for a relative one. -/
  root : String
  /-- The parts between slashes. -/
  parts : List String
deriving DecidableEq, Repr

namespace PlainPath

/-- The parts of a path between slashes, less the empty ones and single dots. -/
def partsOf (text : List Char) : List String :=
  ((text.splitOn '/').filter fun p ↦ !p.isEmpty && p != ['.']).map String.ofList

/-- The plain form of a path. Exactly two slashes at the start are kept. -/
def ofText (text : String) : PlainPath :=
  let chars := text.toList
  let slashes := (chars.takeWhile (· == '/')).length
  ⟨if slashes = 0 then "" else if slashes = 2 then "//" else "/", partsOf chars⟩

/-- The plain form of a text that may be a path: the character of code zero ends every path, so no
path has it. -/
def ofText? (text : String) : Option PlainPath :=
  if text.toList.contains '\x00' then none else some (ofText text)

def render (p : PlainPath) : String :=
  let text := p.root ++ "/".intercalate p.parts
  if text.isEmpty then "." else text

/-- A path taken from another one, unless it is absolute. -/
def join (base p : PlainPath) : PlainPath :=
  if p.root.isEmpty then { base with parts := base.parts ++ p.parts } else p

end PlainPath

example : (PlainPath.ofText "x//y/./z/").render = "x/y/z" := by decide +kernel
example : (PlainPath.ofText "").render = "." := by decide +kernel

end SceneSearch
