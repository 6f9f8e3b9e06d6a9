import SceneSearch.Disk.Path

/-!
# File trees

A disk is a tree of directories with files at its ends. A path leads down it name by name, from the
root or from the current directory, and double dots lead up again. So every name but the last has to
be that of a directory, also in front of double dots: a path leads nowhere where a directory is
missing, and a path that goes on below a file leads nowhere either. The lengths of names and of
paths are limited. The main law: a directory that was made is there.
-/

namespace SceneSearch

/-! ## Entries -/

/-- Where something is: the names on the way down from the root. -/
abbrev Location := List String

def locationText (l : Location) : String := "/" ++ "/".intercalate l

/-- What is at a location. -/
inductive FileEntry where
  /-- A directory. -/
  | directory
  /-- A file with its bytes. -/
  | file (bytes : ByteArray)

/-- What is known of a disk. -/
structure FileTree where
  /-- The current directory. -/
  current : Location := []
  /-- What is where, the current directory and those above it apart. -/
  entries : List (Location × FileEntry) := []

/-- Why a path leads nowhere. -/
inductive PathFault where
  /-- Nothing is there. -/
  | absent
  /-- It goes on below a file. -/
  | belowFile
  /-- A name or the whole path is too long. -/
  | tooLong
deriving DecidableEq, Repr

def nameLimit : Nat := 255

def pathLimit : Nat := 4095

namespace FileTree

/-- What is at a location. The current directory is there, and so are those above it. -/
def at? (t : FileTree) (l : Location) : Option FileEntry :=
  if l.isPrefixOf t.current then some .directory else t.entries.lookup l

def put (t : FileTree) (l : Location) (e : FileEntry) : FileTree :=
  { t with entries := (l, e) :: t.entries }

/-! ## Following paths -/

/-- Where a name leads to from a location. -/
def follow (t : FileTree) (here : Location) (name : String) : Except PathFault Location :=
  match t.at? here with
  | none => .error .absent
  | some (.file _) => .error .belowFile
  | some .directory =>
    if name = ".." then .ok here.dropLast
    else if nameLimit < name.utf8ByteSize then .error .tooLong
    else .ok (here ++ [name])

def start (t : FileTree) (p : PlainPath) : Location := if p.root.isEmpty then t.current else []

/-- Where a path leads to, whether something is there or not. -/
def locate (t : FileTree) (p : PlainPath) : Except PathFault Location :=
  if pathLimit < p.render.utf8ByteSize then .error .tooLong
  else p.parts.foldlM t.follow (t.start p)

/-- What a path leads to. -/
def look (t : FileTree) (p : PlainPath) : Except PathFault FileEntry := do
  match t.at? (← t.locate p) with
  | none => throw .absent
  | some e => pure e

/-- Whether a path leads to a directory; a path that is too long cannot be asked about. -/
def isDirectory (t : FileTree) (p : PlainPath) : Except PathFault Bool :=
  match t.look p with
  | .ok .directory => .ok true
  | .ok (.file _) => .ok false
  | .error .tooLong => .error .tooLong
  | .error _ => .ok false

/-! ## Making directories -/

/-- How many directories are made one below the other at once. -/
def depthLimit : Nat := 965

/-- Why a directory cannot be made. -/
inductive MakeFault where
  /-- A file is in its place, or in that of a directory above it. -/
  | occupied
  /-- Too many directories are missing above it. -/
  | tooDeep
  /-- Its path leads nowhere. -/
  | path (cause : PathFault)
deriving DecidableEq, Repr

/-- Goes on from a directory name by name and makes what is missing; `made` tells whether something
was. Directories that were made stay, even if a later one cannot be made. -/
def makeFrom (t : FileTree) (made : Bool) (here : Location) :
    List String → Except MakeFault Location × FileTree
  | [] => (.ok here, t)
  | name :: rest =>
    match t.follow here name with
    | .error .belowFile => (.error (if made then .occupied else .path .belowFile), t)
    | .error fault => (.error (.path fault), t)
    | .ok l =>
      -- a file in the middle is met again by the next name, which cannot be followed
      match t.at? l with
      | some .directory => t.makeFrom made l rest
      | some (.file _) => if rest.isEmpty then (.error .occupied, t) else t.makeFrom made l rest
      | none =>
        if !made && depthLimit ≤ rest.length then (.error .tooDeep, t)
        else (t.put l .directory).makeFrom true l rest

/-- Makes a directory and those that it is in, as far as they are missing. -/
def makeDirectory (t : FileTree) (p : PlainPath) : Except MakeFault Location × FileTree :=
  if pathLimit < p.render.utf8ByteSize then (.error (.path .tooLong), t)
  else t.makeFrom false (t.start p) p.parts

end FileTree

end SceneSearch
