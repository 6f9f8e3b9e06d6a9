import SceneSearch.Number.Literal

/-!
# Stored state

What is kept from one run to the next is a table of texts by key, with the version of its layout
under a key of its own. A new store has no table yet; whoever opens it creates the table, unless it
has a version already. The last query is one row of the table.
-/

namespace SceneSearch

def schemaVersion : Nat := 1

def schemaVersionKey : String := "schema_version"

def lastQueryKey : String := "last_query"

/-- Why the store refuses. -/
inductive StoreFault where
  /-- There is no table. -/
  | noTable
  /-- A value is missing. -/
  | missingValue
  /-- The stored version is no integer. -/
  | badVersion (cause : IntegerFault)
deriving DecidableEq, Repr

def StoreFault.message : StoreFault → String
  | noTable => "no such table: metadata"
  | missingValue => "NOT NULL constraint failed: metadata.value"
  | badVersion cause => cause.message

/-- The rows by key, the latest written first, or no table at all. -/
structure Metadata where
  /-- The rows. -/
  table : Option (List (String × String)) := none
deriving DecidableEq, Repr

namespace Metadata

/-! ## Rows -/

def write (key value : String) (rows : List (String × String)) : List (String × String) :=
  (key, value) :: rows.filter (·.1 ≠ key)

/-- The value of a key among rows. -/
def read? (key : String) (rows : List (String × String)) : Option String :=
  (rows.find? (·.1 == key)).map Prod.snd

/-- The value of a key. A row without a key is never found. -/
def get (m : Metadata) (key : Option String) : Except StoreFault (Option String) :=
  match m.table with
  | none => .error .noTable
  | some rows => .ok (key.bind fun key ↦ read? key rows)

def set (m : Metadata) (key value : Option String) : Except StoreFault Metadata :=
  match m.table, value with
  | none, _ => .error .noTable
  | some _, none => .error .missingValue
  | some rows, some value =>
    .ok { table := some (match key with | none => rows | some key => write key value rows) }

/-! ## The layout -/

/-- Creates the table if there is none, and writes the version. -/
def create (m : Metadata) : Metadata :=
  { table := some (write schemaVersionKey (toString schemaVersion) (m.table.getD [])) }

/-- The version, if there is a table with one. -/
def version (m : Metadata) : Except StoreFault (Option Int) :=
  match m.get schemaVersionKey with
  | .error _ | .ok none => .ok none
  | .ok (some text) => ((integerOfText text).mapError .badVersion).map some

/-- Creates the table unless it has a version. -/
def migrate (m : Metadata) : Except StoreFault Metadata :=
  m.version.map fun version ↦ if version.isNone then m.create else m

/-! ## The last query -/

def lastQuery (m : Metadata) : Except StoreFault (Option String × Metadata) := do
  let m ← m.migrate
  let query ← m.get lastQueryKey
  pure (query, m)

/-- Writes the last query. Opening the store may change it even if the query is refused. -/
def setLastQuery (m : Metadata) (query : Option String) : Except StoreFault Unit × Metadata :=
  match m.migrate with
  | .error fault => (.error fault, m)
  | .ok m =>
    match m.set lastQueryKey query with
    | .error fault => (.error fault, m)
    | .ok m => (.ok (), m)

/-! ## Small laws -/

theorem read?_write (key value : String) (rows : List (String × String)) :
    read? key (write key value rows) = some value := by
  simp [read?, write]

theorem read?_write_of_ne {key other : String} (value : String) (rows : List (String × String))
    (h : other ≠ key) : read? other (write key value rows) = read? other rows := by
  have swapped : ¬key = other := fun e ↦ h e.symm
  simp only [read?, write, List.find?_cons]
  rw [show (key == other) = false by simp [swapped]]
  simp only [List.find?_filter]
  congr 2
  funext r
  by_cases hr : r.1 = other <;> simp [hr, h]

end Metadata

end SceneSearch
