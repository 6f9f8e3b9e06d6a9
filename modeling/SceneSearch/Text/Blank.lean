/-!
# Blank characters

What separates words and what is cut from the ends of a text. The set is the Unicode one: the
twenty-five characters with property White_Space and the four information separators.
-/

namespace SceneSearch

/-! ## The set -/

/-- The blank characters. -/
def isBlank (c : Char) : Bool :=
  let n := c.toNat
  (0x09 ≤ n && n ≤ 0x0D) || (0x1C ≤ n && n ≤ 0x20) || n == 0x85 || n == 0xA0 || n == 0x1680 ||
    (0x2000 ≤ n && n ≤ 0x200A) || n == 0x2028 || n == 0x2029 || n == 0x202F || n == 0x205F ||
    n == 0x3000

/-! ## Cutting blanks -/

/-- `s` without its leading blanks. -/
def trimStart (s : List Char) : List Char := s.dropWhile isBlank

/-- `s` without its trailing blanks. -/
def trimEnd (s : List Char) : List Char := (s.reverse.dropWhile isBlank).reverse

/-- `s` without the blanks at either end. -/
def trim (s : List Char) : List Char := trimEnd (trimStart s)

/-- Whether `s` holds nothing but blanks. -/
def allBlank (s : List Char) : Bool := s.all isBlank

/-! ## Small laws -/

theorem trimStart_of_not_blank {c : Char} (s : List Char) (h : isBlank c = false) :
    trimStart (c :: s) = c :: s := by
  simp [trimStart, h]

theorem trimEnd_of_not_blank {c : Char} (s : List Char) (h : isBlank c = false) :
    trimEnd (s ++ [c]) = s ++ [c] := by
  simp [trimEnd, h]

end SceneSearch
