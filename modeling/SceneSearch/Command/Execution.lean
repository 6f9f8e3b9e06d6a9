import SceneSearch.Command.Arguments
import SceneSearch.Json.Writer
import SceneSearch.Scene.Import
import SceneSearch.Service.Tools
import SceneSearch.State.Saved
import SceneSearch.Text.ControlSequence

/-!
# Running commands

What the commands print, report and return, as a function of what is on the disk. Mistakes of the
user are reported and end with code 1, a failed search as well, and a cancelled one with code 130.
Whatever else goes wrong ends with code 1 too and is let through.
-/

namespace SceneSearch

namespace Command

/-! ## The disk -/

/-- The disk, as far as commands look at it. -/
structure Disk where
  /-- What is where. -/
  tree : FileTree
  /-- The state directory, if none is named. -/
  defaultDirectory : PlainPath

/-! ## Results -/

/-- What is let through. -/
inductive Crash where
  /-- A file that cannot be read as text, or an export whose numbers or children are beyond use. -/
  | load (cause : LoadFault)
  /-- A document that cannot be shown. -/
  | host (cause : HostFault)
  /-- A document whose path is too long. -/
  | documentPathTooLong
  /-- A document that is a directory. -/
  | documentIsDirectory
  /-- A state directory that cannot be made. -/
  | directory (cause : FileTree.MakeFault)
  /-- State that cannot be used. -/
  | state (cause : Metadata.FileFault)
deriving DecidableEq, Repr

/-- What a command leaves behind. -/
structure Report where
  /-- The exit code. -/
  exit : Nat := 0
  /-- What was printed, as plain text. -/
  output : String := ""
  /-- The records that were written. -/
  log : List LogRecord := []
  /-- What was let through. -/
  crash : Option Crash := none

def Report.refusal (message : String) : Report := { exit := 1, log := [⟨.error, message⟩] }

/-- A failure that is let through. -/
def Report.ofCrash (crash : Crash) (log : List LogRecord := []) : Report :=
  { exit := 1, log, crash := some crash }

/-- The records that are shown, one a line. -/
def Report.shownLog (r : Report) (threshold : LogLevel) : String :=
  "\n".intercalate ((r.log.filter fun e ↦ threshold.rank ≤ e.level.rank).map LogRecord.render)

/-! ## Documents and state -/

/-- Whether a failure to load is the export's fault and is reported as such. -/
def isFormatFault : LoadFault → Bool
  | .invalidJson => true
  | .refused .numberTooLarge | .refused (.notIterable _) | .refused .unwritable => false
  | .refused _ => true
  | _ => false

/-- Loads a document, or says why not. -/
def Disk.load (d : Disk) (document : PlainPath) : Except Report Document :=
  match d.tree.look document with
  | .error .tooLong => .error (.ofCrash .documentPathTooLong)
  | .error _ => .error (.refusal ("Document not found: " ++ document.render))
  | .ok .directory => .error (.ofCrash .documentIsDirectory)
  | .ok (.file bytes) =>
    (Document.ofBytes bytes).mapError fun fault ↦
      if isFormatFault fault then
        .refusal ("Cannot read document: " ++ fault.message document.render)
      else .ofCrash (.load fault)

/-- Opens the state of the directory that is named, or of the usual one, and tells where it is. The
directory is made if it is missing. -/
def Disk.openState (d : Disk) (named : Option PlainPath) :
    Except Crash (Location × Metadata) × Disk :=
  match d.tree.makeDirectory (named.getD d.defaultDirectory) with
  | (.error fault, tree) => (.error (.directory fault), { d with tree })
  | (.ok l, tree) =>
    (((Metadata.inDirectory tree l).map (l, ·)).mapError .state, { d with tree })

/-- The disk with the state of a directory written down. -/
def Disk.keep (d : Disk) (l : Location) (m : Metadata) : Disk :=
  { d with tree := m.keepIn d.tree l }

/-! ## Commands -/

/-- The store of last queries in the state. -/
def lastQueryStore (m : Metadata) : QueryStore Metadata :=
  { state := m
    save := fun m query ↦
      match m.setLastQuery query with
      | (.ok (), m) => .ok m
      | (.error fault, _) => .error fault.message }

def outcomeJson (o : Outcome) : Json :=
  .object [("status", .string o.status.name), ("message", .string o.message),
    ("page", (o.page.map fun p ↦ Json.string p.name).getD .null), ("count", .int o.count),
    ("results", .array (o.results.map (·.toJson "id")))]

def outcomeText (o : Outcome) : String :=
  o.message ++ "\n" ++
    String.join (o.results.map fun f ↦ "  " ++ f.path ++ "  id=" ++ f.spot.id ++ "\n")

def exitCode : OutcomeStatus → Nat
  | .error => 1
  | .cancelled => 130
  | _ => 0

def searchHost (document : Document) (select : List String) (page : Option String) :
    Except Report Host := do
  let page ← (document.requestedPage page).mapError .refusal
  let selection ← (document.getAll select).mapError fun id ↦ .refusal (nodeNotFound id)
  (Host.create document page selection).mapError fun fault ↦ .ofCrash (.host fault)

/-- Runs a query; `interrupted` tells whether the user interrupts it before it starts. -/
def runSearch (d : Disk) (interrupted : Bool) (document : PlainPath) (query : String)
    (select : List String) (page : Option String) (dataDirectory : Option PlainPath) (json : Bool) :
    Report × Disk :=
  match (do searchHost (← d.load document) select page : Except Report Host) with
  | .error report => (report, d)
  | .ok host =>
    let start : Monitor :=
      Monitor.note { watch := { cancelled := interrupted } } .debug host.selectionLabel
    match d.openState dataDirectory with
    | (.error crash, d) => (.ofCrash crash start.log, d)
    | (.ok (directory, state), d) =>
      let r := runQuery Engine.new host query (some (lastQueryStore state)) start
      let output := if json then (outcomeJson r.outcome).pretty ++ "\n" else outcomeText r.outcome
      let state := (r.store.map (·.state)).getD state
      ({ exit := exitCode r.outcome.status, output := plainText output, log := r.monitor.log },
        d.keep directory state)

def runTree (d : Disk) (document : PlainPath) (node : Option String) (maxDepth : Option Int) :
    Report :=
  let starts : Except Report (List Spot) := do
    let document ← d.load document
    match node.filter (!·.isEmpty) with
    | none => pure document.pages
    | some id => (document.getAll [id]).mapError fun id ↦ .refusal (nodeNotFound id)
  match starts with
  | .error report => report
  | .ok starts => { output := plainText (String.join (starts.map fun s ↦ s.outline maxDepth)) }

def runLast (d : Disk) (dataDirectory : Option PlainPath) : Report × Disk :=
  match d.openState dataDirectory with
  | (.error crash, d) => (.ofCrash crash, d)
  | (.ok (directory, state), d) =>
    let query := match state.lastQuery with
      | .ok (some query, _) => query
      | _ => "No query has been run yet."
    ({ output := plainText query ++ "\n" }, d.keep directory state)

def run (d : Disk) (interrupted : Bool) : Action → Report × Disk
  | .search document query select page dataDirectory json =>
    runSearch d interrupted document query select page dataDirectory json
  | .tree document node maxDepth => (runTree d document node maxDepth, d)
  | .last dataDirectory => runLast d dataDirectory
  | .help => ({}, d)

/-- Runs a command line; one that cannot be understood ends with code 2. -/
def runArguments (d : Disk) (interrupted : Bool) (args : List String) :
    Report × LogLevel × Disk :=
  match parse args with
  | .error _ => ({ exit := 2 }, .info, d)
  | .ok invocation =>
    let (report, d) := run d interrupted invocation.action
    (report, invocation.threshold, d)

end Command

end SceneSearch
