import SceneSearch.Command.Execution
import SceneSearch.State.Directory

/-!
# The program

Reads what a command looks at from the disk, runs the command on it, and writes down what it leaves
behind: its output, its records, and the state of the directory that it used.
-/

namespace SceneSearch

namespace Command

/-! ## What a command looks at -/

def Action.document? : Action → Option PlainPath
  | .search document _ _ _ _ _ => some document
  | .tree document _ _ => some document
  | _ => none

def Action.directory? : Action → Option PlainPath
  | .search _ _ _ _ directory _ => directory
  | .last directory => directory
  | _ => none

def Crash.message (document : String) : Crash → String
  | .load fault => fault.message document
  | .host fault => fault.message
  | .documentPathTooLong => document ++ " is too long for a path"
  | .documentIsDirectory => document ++ " is a directory"
  | .directory _ => "the state directory cannot be made"
  | .state fault => fault.message

def usage : String :=
  "usage: scene-search [-v] [-q] COMMAND\n\n" ++
  "  search DOCUMENT QUERY [-s ID]... [-p PAGE] [-j] [-d DIRECTORY]\n" ++
  "  tree DOCUMENT [-n ID] [-m DEPTH]\n" ++
  "  last [-d DIRECTORY]\n"

/-! ## The disk -/

/-- Where state is kept if nothing else is said, below the home directory. -/
def usualDirectories : List PlainPath :=
  [⟨"", ["~", ".local", "share", "scene-search"]⟩, ⟨"", ["~", ".config", "scene-search"]⟩]

def lookAt (l : Location) : IO (Option FileEntry) := do
  match ← (IO.FS.readBinFile (locationText l)).toBaseIO with
  | .ok bytes => pure (some (.file bytes))
  | .error (.noFileOrDirectory ..) => pure none
  | .error (.inappropriateType ..) => pure (some .directory)
  | .error fault => throw fault

/-- A file tree with what lies on the way along a path. -/
def exploreAlong (tree : FileTree) (here : Location) : List String → IO FileTree
  | [] => pure tree
  | name :: rest => do
    match tree.follow here name with
    | .error _ => pure tree
    | .ok l =>
      match tree.at? l with
      | some _ => exploreAlong tree l rest
      | none =>
        match ← lookAt l with
        | none => pure tree
        | some e => exploreAlong (tree.put l e) l rest

/-- A file tree with what lies on the way along some paths. -/
def explore (tree : FileTree) (paths : List PlainPath) : IO FileTree :=
  paths.foldlM (fun tree p ↦
    exploreAlong tree (tree.start p) p.parts) tree

/-- Carries out what was put into a file tree. -/
def writeDown (before after : FileTree) : IO Unit := do
  let added := after.entries.length - before.entries.length
  for (l, e) in (after.entries.take added).reverse do
    match e with
    | .directory => IO.FS.createDirAll (locationText l)
    | .file bytes => IO.FS.writeBinFile (locationText l) bytes

/-- The disk as far as an action looks at it. -/
def readDisk (action : Action) : IO Disk := do
  let current := PlainPath.ofText (← IO.currentDir).toString
  let homes : Homes := { own := (← IO.getEnv "HOME").getD "/" }
  let named ← IO.getEnv "LAYER_QUERY_DATA_DIR"
  let candidates := usualDirectories.filterMap fun p ↦ (p.expandHome homes).toOption
  let tree ← explore { current := current.parts } candidates
  let defaultDirectory ← match stateDirectory homes tree named candidates with
    | .ok directory => pure directory
    | .error fault => throw (IO.userError fault.message)
  let directory := action.directory?.getD defaultDirectory
  let file := directory.join ⟨"", [Metadata.fileName]⟩
  return { tree := ← explore tree (action.document?.toList ++ [file]), defaultDirectory }

/-- Runs an action and gives its exit code. -/
def runAction (invocation : Invocation) : IO UInt32 := do
  let action := invocation.action
  let before ← readDisk action
  let (report, after) := run before false action
  writeDown before.tree after.tree
  IO.print report.output
  let log := report.shownLog invocation.threshold
  if !log.isEmpty then IO.eprintln log
  if let some crash := report.crash then
    IO.eprintln (crash.message ((action.document?.map PlainPath.render).getD ""))
  return report.exit.toUInt32

end Command

end SceneSearch

open SceneSearch in
/-- Reads the command line and runs what it asks for. -/
def main (args : List String) : IO UInt32 := do
  match Command.parse args with
  | .error _ =>
    IO.eprint Command.usage
    return 2
  | .ok ⟨_, .help⟩ =>
    IO.print Command.usage
    return 0
  | .ok invocation => Command.runAction invocation
