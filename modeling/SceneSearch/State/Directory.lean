import SceneSearch.Disk.FileTree
import SceneSearch.Text.Quoted

/-!
# The state directory

Where state is kept: where the user says, else in the first of some usual directories that exists,
else in the first of them.
-/

namespace SceneSearch

/-! ## Home directories -/

/-- Where users have their home. -/
structure Homes where
  /-- The home of the current user. -/
  own : String
  /-- The homes of other users, by name. -/
  others : List (String × String) := []

/-- Why there is no directory to take. -/
inductive DirectoryFault where
  /-- The home of a user is not known. -/
  | unknownHome
  /-- There is nothing to choose from. -/
  | noCandidates
  /-- The path of a directory is too long to be looked for. -/
  | tooLong (p : PlainPath)
deriving DecidableEq, Repr

def DirectoryFault.message : DirectoryFault → String
  | unknownHome => "Could not determine home directory."
  | noCandidates => "list index out of range"
  | tooLong p => "[Errno 36] File name too long: " ++ quoted p.render

/-- A path with a tilde at its start replaced by a home. -/
def PlainPath.expandHome (homes : Homes) (p : PlainPath) : Except DirectoryFault PlainPath :=
  match p.root.isEmpty, p.parts with
  | true, first :: rest =>
    match first.toList with
    | '~' :: name =>
      let home? := if name.isEmpty then some homes.own else homes.others.lookup (String.ofList name)
      match home? with
      | none => .error .unknownHome
      | some home =>
        let home := ofText home
        .ok { home with parts := home.parts ++ rest }
    | _ => .ok p
  | _, _ => .ok p

/-! ## Choosing -/

/-- The first path that leads to a directory. -/
def firstDirectory (tree : FileTree) : List PlainPath → Except DirectoryFault (Option PlainPath)
  | [] => .ok none
  | p :: rest =>
    match tree.isDirectory p with
    | .error _ => .error (.tooLong p)
    | .ok true => .ok (some p)
    | .ok false => firstDirectory tree rest

/-- The state directory: the one that the user names, else the first candidate that is a directory,
else the first candidate. -/
def stateDirectory (homes : Homes) (tree : FileTree) (override : Option String)
    (candidates : List PlainPath) : Except DirectoryFault PlainPath :=
  match override.filter (!·.isEmpty) with
  | some named => (PlainPath.ofText named).expandHome homes
  | none =>
    match candidates with
    | [] => .error .noCandidates
    | first :: _ => (firstDirectory tree candidates).map (·.getD first)

end SceneSearch
