/-!
# Control sequences

Texts may hold sequences that tell a terminal how to go on: the escape character, a bracket,
parameters and a letter. Output that is kept as plain text leaves them out.
-/

namespace SceneSearch

/-- Characters of parameters. -/
def isControlParameter (c : Char) : Bool := c.isDigit || c = ';' || c = '?'

/-- What follows the control sequence that `s`, the text behind an escape character, goes on
with. -/
def afterControl? : List Char → Option (List Char)
  | '[' :: rest =>
    match rest.dropWhile isControlParameter with
    | c :: after => if c.isAlpha then some after else none
    | [] => none
  | _ => none

theorem length_afterControl? {s after : List Char} (h : afterControl? s = some after) :
    after.length < s.length := by
  match s with
  | [] => simp [afterControl?] at h
  | c :: rest =>
    unfold afterControl? at h
    split at h
    · rename_i rest' heq
      have le := (List.dropWhile_sublist isControlParameter (l := rest')).length_le
      split at h
      · rename_i d after' dropped
        rw [dropped] at le
        rw [heq]
        split at h
        · obtain rfl := Option.some.inj h
          simp only [List.length_cons] at le ⊢
          omega
        · simp at h
      · simp at h
    · simp at h

/-- Leaves out control sequences, from left to right and only once. -/
def dropControls : List Char → List Char
  | [] => []
  | c :: rest =>
    if c = '\x1b' then
      match _h : afterControl? rest with
      | some after => dropControls after
      | none => c :: dropControls rest
    else c :: dropControls rest
termination_by s => s.length
decreasing_by
  · have := length_afterControl? _h
    simp only [List.length_cons]
    omega
  · simp
  · simp

/-- A text without control sequences. -/
def plainText (s : String) : String := String.ofList (dropControls s.toList)

end SceneSearch
