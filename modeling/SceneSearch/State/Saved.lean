import SceneSearch.Disk.FileTree
import SceneSearch.Json.Reader
import SceneSearch.Json.Writer
import SceneSearch.State.Metadata

/-!
# Saved state

How stored state is written down: a list of rows, each of them a key and a value, or null as long as
there is no table. The list keeps the order of the rows, so what is read back is what was written.
The file that holds it starts with a byte that no text has, so it is not taken for a document.
-/

namespace SceneSearch

namespace Metadata

/-! ## Writing and reading -/

def rowJson (row : String × String) : Json := .array [.string row.1, .string row.2]

/-- The row that a value writes down. -/
def rowOf? : Json → Option (String × String)
  | .array [.string key, .string value] => some (key, value)
  | _ => none

def toJson (m : Metadata) : Json :=
  match m.table with
  | none => .null
  | some rows => .array (rows.map rowJson)

/-- The stored state that a value writes down. -/
def ofJson? : Json → Option Metadata
  | .null => some {}
  | .array items => (items.mapM rowOf?).map fun rows ↦ { table := some rows }
  | _ => none

/-! ## Files -/

/-- The name of the file that holds the state of a directory. -/
def fileName : String := "state.db"

/-- The byte that a file of state starts with. -/
def fileMark : UInt8 := 0x81

def toBytes (m : Metadata) : ByteArray := ⟨#[fileMark]⟩ ++ m.toJson.render.toUTF8

/-- The stored state that a file holds. -/
def ofBytes? (bytes : ByteArray) : Option Metadata := do
  guard (bytes[0]? = some fileMark)
  let text ← String.fromUTF8? (bytes.extract 1 bytes.size)
  let value ← (Json.parse text).toOption
  ofJson? value

/-- How many bytes the path of a file of state may have. -/
def filePathLimit : Nat := 504

/-- Why the state of a directory cannot be used. -/
inductive FileFault where
  /-- Its file cannot be opened. -/
  | notOpened
  /-- Its file holds something else. -/
  | noState
  /-- It cannot be brought up to date. -/
  | store (cause : StoreFault)
deriving DecidableEq, Repr

def FileFault.message : FileFault → String
  | notOpened => "unable to open database file"
  | noState => "file is not a database"
  | store cause => cause.message

/-- The state of a directory, brought up to date. -/
def inDirectory (tree : FileTree) (l : Location) : Except FileFault Metadata :=
  let file := l ++ [fileName]
  if filePathLimit < (locationText file).utf8ByteSize then .error .notOpened
  else
    match tree.at? file with
    | none => (migrate {}).mapError .store
    | some .directory => .error .notOpened
    | some (.file bytes) =>
      match ofBytes? bytes with
      | none => .error .noState
      | some m => m.migrate.mapError .store

/-- The file tree with the state of a directory written down. -/
def keepIn (m : Metadata) (tree : FileTree) (l : Location) : FileTree :=
  tree.put (l ++ [fileName]) (.file m.toBytes)

/-! ## Small laws -/

theorem mapM_rowOf?_map (rows : List (String × String)) :
    (rows.map rowJson).mapM rowOf? = some rows := by
  induction rows with
  | nil => rfl
  | cons row rest ih => simp [List.mapM_cons, rowJson, rowOf?, ih]

theorem ofJson?_toJson (m : Metadata) : ofJson? m.toJson = some m := by
  obtain ⟨_ | rows⟩ := m
  · rfl
  · show ((rows.map rowJson).mapM rowOf?).map _ = _
    rw [mapM_rowOf?_map]
    rfl

end Metadata

end SceneSearch
