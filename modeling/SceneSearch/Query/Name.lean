import SceneSearch.Text.Blank
import SceneSearch.Text.LowerCase

/-!
# Name queries

The part of a segment after its symbol is a query on names. It is read as tokens: words outside
double quotes, and literals between them. All tokens have to occur in a name, a word whatever the
case of its letters, a literal as it is written. A query that is one literal and nothing else asks
for the whole name.
-/

namespace SceneSearch

/-! ## Tokens -/

/-- A token of a name query. -/
inductive NameToken where
  | word (text : List Char)
  | literal (text : List Char)
deriving DecidableEq, Repr

namespace NameToken

/-- The text of a token, without quotes. -/
def text : NameToken → List Char
  | word t => t
  | literal t => t

def isLiteral : NameToken → Bool
  | word _ => false
  | literal _ => true

/-- The word that was read so far, its characters reversed, if there is one. -/
def pendingWord (done : List Char) : List NameToken :=
  if done.isEmpty then [] else [word done.reverse]

/-- The literal that was read so far, its characters reversed, if it is not empty. -/
def pendingLiteral (done : List Char) : List NameToken :=
  if done.isEmpty then [] else [literal done.reverse]

/-- Reads tokens. `inside` tells whether a quote is open, and `done` is what was read of the
current token, reversed. An open quote runs to the end of the text. -/
def scan (inside : Bool) (done : List Char) : List Char → List NameToken
  | [] => if inside then pendingLiteral done else pendingWord done
  | c :: rest =>
    if c = '"' then
      (if inside then pendingLiteral done else pendingWord done) ++ scan (!inside) [] rest
    else if !inside && isBlank c then pendingWord done ++ scan false [] rest
    else scan inside (c :: done) rest

def tokenize (query : String) : List NameToken := scan false [] query.toList

end NameToken

/-- Whether a name query starts and ends with a double quote, blanks around it apart. -/
def isFullyQuoted (query : String) : Bool :=
  let trimmed := trim query.toList
  2 ≤ trimmed.length && trimmed.head? == some '"' && trimmed.getLast? == some '"'

/-! ## Occurrence -/

/-- Whether `part` occurs in a text as consecutive characters. -/
def occursIn (part : List Char) : List Char → Bool
  | [] => part.isEmpty
  | c :: rest => part.isPrefixOf (c :: rest) || occursIn part rest

theorem occursIn_iff {part s : List Char} : occursIn part s = true ↔ part <:+: s := by
  induction s with
  | nil => simp [occursIn]
  | cons c rest ih => rw [occursIn, Bool.or_eq_true, ih, List.isPrefixOf_iff_prefix,
      List.infix_cons_iff]

/-! ## Matchers -/

/-- What a name query asks of a name. -/
inductive NameMatcher where
  /-- Nothing. -/
  | anything
  /-- To be this text. -/
  | exactly (text : List Char)
  /-- To hold all literals as they are, and all words whatever the case. -/
  | containing (literals words : List (List Char))
deriving DecidableEq, Repr

namespace NameMatcher

/-- The matcher of a name query. Words are put in lower case once. -/
def ofQuery (query : String) : NameMatcher :=
  let tokens := NameToken.tokenize query
  match tokens with
  | [] => anything
  | [.literal text] =>
    if isFullyQuoted query then exactly text else containing [text] []
  | tokens =>
    containing ((tokens.filter (·.isLiteral)).map (·.text))
      ((tokens.filter (!·.isLiteral)).map (lower ·.text))

/-- Whether a name has what a query asks for. -/
def accepts : NameMatcher → String → Bool
  | anything, _ => true
  | exactly text, name => name.toList == text
  | containing literals words, name =>
    literals.all (occursIn · name.toList) && words.all (occursIn · (lower name.toList))

end NameMatcher

def nameMatches (query name : String) : Bool := (NameMatcher.ofQuery query).accepts name

end SceneSearch
