import Mathlib.Data.Finmap
import SceneSearch.State.Metadata

/-!
# The state as a map of texts

To those who use the store it is no table, or a finite map of texts by key. Every step of the store
does to that map what the step of the map does, so a run of the store is a run of the map, reply by
reply. A step that is refused leaves the state alone unless it opened an empty store, opening twice
is opening once, and the last query is the one that was written last.
-/

namespace SceneSearch

/-! ## Steps and replies -/

/-- What is asked of the store. The last query is read and written through a store that was opened
for it. -/
inductive StoreStep where
  | create
  | migrate
  | version
  | get (key : Option String)
  | set (key value : Option String)
  | last
  | setLast (query : Option String)
deriving DecidableEq, Repr

inductive StoreReply where
  | done
  | version (number : Option Int)
  | text (value : Option String)
deriving DecidableEq, Repr

namespace StoreStep

/-- What a step writes to a key if it is not refused. -/
def written (key : String) : StoreStep → Option String
  | .set k value => if k = some key then value else none
  | .setLast query => if lastQueryKey = key then query else none
  | _ => none

/-- What a step with this reply wrote to a key. -/
def wrote (key : String) (step : StoreStep) : Except StoreFault StoreReply → Option String
  | .error _ => none
  | .ok _ => step.written key

theorem wrote_of_written {key : String} {step : StoreStep} (hwritten : step.written key = none)
    (reply : Except StoreFault StoreReply) : step.wrote key reply = none := by
  cases reply with
  | error fault => rfl
  | ok reply => exact hwritten

end StoreStep

/-- The replies of a run, and the state after it. -/
def runSteps {σ : Type} (next : σ → StoreStep → Except StoreFault StoreReply × σ) (s : σ) :
    List StoreStep → List (Except StoreFault StoreReply) × σ
  | [] => ([], s)
  | step :: rest =>
    let (reply, s) := next s step
    let (replies, s) := runSteps next s rest
    (reply :: replies, s)

/-- What the steps of a run write to a key, those that were refused left out. -/
def writesTo (key : String) (steps : List StoreStep)
    (replies : List (Except StoreFault StoreReply)) : List String :=
  (steps.zip replies).filterMap fun (step, reply) ↦ step.wrote key reply

/-! ## Maps -/

/-- A finite map of texts by key. -/
abbrev TextMap := Finmap fun _ : String ↦ String

namespace TextMap

/-- The map with the version of the layout, in place of no map an otherwise empty one. -/
def created (s : Option TextMap) : TextMap :=
  (s.getD ∅).insert schemaVersionKey (toString schemaVersion)

def version (s : Option TextMap) : Except StoreFault (Option Int) :=
  match s.bind (·.lookup schemaVersionKey) with
  | none => .ok none
  | some text => ((integerOfText text).mapError .badVersion).map some

/-- The map after opening. -/
def opened (s : Option TextMap) : Except StoreFault TextMap :=
  (version s).map fun
    | none => created s
    | some _ => s.getD ∅

/-- A step of the map. -/
def after (s : Option TextMap) : StoreStep → Except StoreFault StoreReply × Option TextMap
  | .create => (.ok .done, some (created s))
  | .migrate =>
    match opened s with
    | .error fault => (.error fault, s)
    | .ok map => (.ok .done, some map)
  | .version => ((version s).map .version, s)
  | .get key =>
    match s with
    | none => (.error .noTable, none)
    | some map => (.ok (.text (key.bind map.lookup)), some map)
  | .set key value =>
    match s, key, value with
    | none, _, _ => (.error .noTable, none)
    | some map, _, none => (.error .missingValue, some map)
    | some map, none, some _ => (.ok .done, some map)
    | some map, some key, some value => (.ok .done, some (map.insert key value))
  | .last =>
    match opened s with
    | .error fault => (.error fault, s)
    | .ok map => (.ok (.text (map.lookup lastQueryKey)), some map)
  | .setLast query =>
    match opened s with
    | .error fault => (.error fault, s)
    | .ok map =>
      match query with
      | none => (.error .missingValue, some map)
      | some query => (.ok .done, some (map.insert lastQueryKey query))

end TextMap

namespace Metadata

/-! ## Steps of the store -/

/-- The reply and the state of a step that gives a new state or is refused. -/
def settle (m : Metadata) : Except StoreFault Metadata → Except StoreFault StoreReply × Metadata
  | .error fault => (.error fault, m)
  | .ok changed => (.ok .done, changed)

/-- A step of the store. -/
def after (m : Metadata) : StoreStep → Except StoreFault StoreReply × Metadata
  | .create => (.ok .done, m.create)
  | .migrate => m.settle m.migrate
  | .version => (m.version.map .version, m)
  | .get key => ((m.get key).map .text, m)
  | .set key value => m.settle (m.set key value)
  | .last =>
    match m.migrate with
    | .error fault => (.error fault, m)
    | .ok opened => ((opened.get lastQueryKey).map .text, opened)
  | .setLast query =>
    let (reply, m) := m.setLastQuery query
    (reply.map fun _ ↦ .done, m)

/-- The value of a key, if there is a table that has it. -/
def held (m : Metadata) (key : String) : Option String :=
  m.table.bind (read? key)

variable {m opened : Metadata} {key : String}

/-! ## Opening -/

private theorem read?_getD (m : Metadata) (key : String) :
    read? key (m.table.getD []) = m.held key := by
  unfold held
  cases m.table <;> rfl

theorem held_create_version (m : Metadata) :
    m.create.held schemaVersionKey = some (toString schemaVersion) :=
  read?_write schemaVersionKey (toString schemaVersion) (m.table.getD [])

theorem held_create (m : Metadata) (hkey : key ≠ schemaVersionKey) :
    m.create.held key = m.held key :=
  (read?_write_of_ne (toString schemaVersion) (m.table.getD []) hkey).trans (read?_getD m key)

theorem version_eq (m : Metadata) :
    m.version = match m.held schemaVersionKey with
      | none => .ok none
      | some text => ((integerOfText text).mapError .badVersion).map some := by
  cases htable : m.table with
  | none => simp [version, get, held, htable]
  | some rows =>
    cases hread : read? schemaVersionKey rows <;> simp [version, get, held, htable, hread]

private theorem version_create (m : Metadata) : m.create.version = .ok (some schemaVersion) := by
  rw [version_eq, held_create_version]
  decide

private theorem held_of_version_eq_none (hversion : m.version = .ok none) :
    m.held schemaVersionKey = none := by
  rw [version_eq] at hversion
  cases hheld : m.held schemaVersionKey with
  | none => rfl
  | some text =>
    cases hn : integerOfText text <;>
      simp [hheld, hn, Except.mapError, Except.map] at hversion

theorem migrate_of_version {n : Int} (hversion : m.version = .ok (some n)) : m.migrate = .ok m := by
  simp [migrate, hversion, Except.map]

theorem migrate_eq_ok_iff : m.migrate = .ok opened ↔
    m.version = .ok none ∧ opened = m.create ∨ (∃ n, m.version = .ok (some n)) ∧ opened = m := by
  cases hversion : m.version with
  | error fault => simp [migrate, hversion, Except.map]
  | ok version => cases version <;> simp [migrate, hversion, Except.map, eq_comm]

theorem eq_or_eq_create_of_migrate (hopened : m.migrate = .ok opened) :
    opened = m ∨ opened = m.create := by
  obtain ⟨-, rfl⟩ | ⟨-, rfl⟩ := migrate_eq_ok_iff.mp hopened
  · exact .inr rfl
  · exact .inl rfl

private theorem held_of_migrate (hopened : m.migrate = .ok opened) (hkey : key ≠ schemaVersionKey) :
    opened.held key = m.held key := by
  rcases eq_or_eq_create_of_migrate hopened with rfl | rfl
  · rfl
  · exact held_create m hkey

theorem exists_table_of_migrate (hopened : m.migrate = .ok opened) :
    ∃ rows, opened.table = some rows := by
  obtain ⟨-, rfl⟩ | ⟨⟨n, hversion⟩, rfl⟩ := migrate_eq_ok_iff.mp hopened
  · exact ⟨_, rfl⟩
  · cases htable : opened.table with
    | none => simp [version_eq, held, htable] at hversion
    | some rows => exact ⟨rows, rfl⟩

private theorem migrate_of_migrate (hopened : m.migrate = .ok opened) :
    opened.migrate = .ok opened := by
  obtain ⟨-, rfl⟩ | ⟨⟨n, hversion⟩, rfl⟩ := migrate_eq_ok_iff.mp hopened
  · exact migrate_of_version (version_create m)
  · exact migrate_of_version hversion

private theorem after_migrate_idem (m : Metadata) :
    (m.after .migrate).2.after .migrate = m.after .migrate := by
  simp only [after]
  cases hopened : m.migrate with
  | error fault => rw [settle, hopened, settle]
  | ok opened => rw [settle, migrate_of_migrate hopened, settle]

/-! ## Reading and writing -/

private theorem held_of_set {k value : Option String} {changed : Metadata}
    (hset : m.set k value = .ok changed) :
    changed.held key = ((if k = some key then value else none).or (m.held key)) := by
  cases htable : m.table with
  | none => simp [set, htable] at hset
  | some rows =>
    cases value with
    | none => simp [set, htable] at hset
    | some value =>
      cases k with
      | none =>
        simp only [set, htable, Except.ok.injEq] at hset
        simp [← hset, held, htable]
      | some k =>
        simp only [set, htable, Except.ok.injEq] at hset
        by_cases hk : k = key
        · simp [← hset, held, hk, read?_write]
        · simp [← hset, held, htable, hk, read?_write_of_ne value rows (Ne.symm hk)]

theorem after_setLast (m : Metadata) (query : Option String) :
    m.after (.setLast query) = match m.migrate with
      | .error fault => (.error fault, m)
      | .ok opened => opened.after (.set lastQueryKey query) := by
  cases hopened : m.migrate with
  | error fault => simp [after, setLastQuery, hopened, Except.map]
  | ok opened =>
    cases hset : opened.set lastQueryKey query <;>
      simp [after, setLastQuery, settle, hopened, hset, Except.map]

/-- A step that reads the last query agrees with the reader, which is refused only where the store
is. -/
theorem after_last (m : Metadata) :
    m.after .last = match m.lastQuery with
      | .error fault => (.error fault, m)
      | .ok (query, opened) => (.ok (.text query), opened) := by
  cases hopened : m.migrate with
  | error fault => simp [after, lastQuery, hopened, bind, Except.bind]
  | ok opened =>
    obtain ⟨rows, hrows⟩ := exists_table_of_migrate hopened
    simp [after, lastQuery, hopened, get, hrows, bind, Except.bind, pure, Except.pure, Except.map]

/-! ## What a step leaves -/

/-- **What a step can do.** It leaves the table alone or creates it, and perhaps it then writes the
row of a key. -/
theorem after_cases (m : Metadata) (step : StoreStep) :
    ∃ laid : Metadata, (laid = m ∨ laid = m.create) ∧
      ((m.after step).2 = laid ∧ (∀ key, step.wrote key (m.after step).1 = none) ∨
        ∃ k value, m.after step = laid.after (.set k value) ∧
          ∀ key, step.wrote key = (StoreStep.set k value).wrote key) := by
  cases step with
  | create => exact ⟨m.create, .inr rfl, .inl ⟨rfl, fun _ ↦ rfl⟩⟩
  | migrate =>
    have hwrote : ∀ key reply, StoreStep.migrate.wrote key reply = none := fun _ ↦
      StoreStep.wrote_of_written rfl
    rw [after]
    cases hopened : m.migrate with
    | error fault => exact ⟨m, .inl rfl, .inl ⟨rfl, fun key ↦ hwrote key _⟩⟩
    | ok opened =>
      exact ⟨opened, eq_or_eq_create_of_migrate hopened, .inl ⟨rfl, fun key ↦ hwrote key _⟩⟩
  | version => exact ⟨m, .inl rfl, .inl ⟨rfl, fun _ ↦ StoreStep.wrote_of_written rfl _⟩⟩
  | get k => exact ⟨m, .inl rfl, .inl ⟨rfl, fun _ ↦ StoreStep.wrote_of_written rfl _⟩⟩
  | set k value => exact ⟨m, .inl rfl, .inr ⟨k, value, rfl, fun _ ↦ rfl⟩⟩
  | last =>
    have hwrote : ∀ key reply, StoreStep.last.wrote key reply = none := fun _ ↦
      StoreStep.wrote_of_written rfl
    rw [after]
    cases hopened : m.migrate with
    | error fault => exact ⟨m, .inl rfl, .inl ⟨rfl, fun key ↦ hwrote key _⟩⟩
    | ok opened =>
      exact ⟨opened, eq_or_eq_create_of_migrate hopened, .inl ⟨rfl, fun key ↦ hwrote key _⟩⟩
  | setLast query =>
    rw [after_setLast]
    cases hopened : m.migrate with
    | error fault => exact ⟨m, .inl rfl, .inl ⟨rfl, fun _ ↦ rfl⟩⟩
    | ok opened =>
      refine ⟨opened, eq_or_eq_create_of_migrate hopened, .inr ⟨lastQueryKey, query, rfl, ?_⟩⟩
      intro key
      funext reply
      cases reply <;> simp [StoreStep.wrote, StoreStep.written]

theorem held_after_set (m : Metadata) (k value : Option String) (key : String) :
    (m.after (.set k value)).2.held key =
      ((StoreStep.set k value).wrote key (m.after (.set k value)).1).or (m.held key) := by
  cases hset : m.set k value with
  | error fault => simp [after, settle, hset, StoreStep.wrote]
  | ok changed => simp [after, settle, hset, StoreStep.wrote, StoreStep.written, held_of_set hset]

/-- Besides the version of the layout a step changes what it wrote and nothing else. -/
theorem held_after (m : Metadata) (step : StoreStep) (hkey : key ≠ schemaVersionKey) :
    (m.after step).2.held key = (step.wrote key (m.after step).1).or (m.held key) := by
  obtain ⟨laid, hlaid, hstep⟩ := after_cases m step
  have hheld : laid.held key = m.held key := by
    rcases hlaid with rfl | rfl
    · rfl
    · exact held_create m hkey
  rcases hstep with ⟨hleft, hwrote⟩ | ⟨k, value, hset, hwrote⟩
  · rw [hleft, hwrote, Option.none_or, hheld]
  · rw [hset, hwrote, held_after_set, hheld]

/-- Where there is a table it has a version of the layout. -/
def Versioned (m : Metadata) : Prop :=
  m.table.isSome → (m.held schemaVersionKey).isSome

private theorem versioned_create (m : Metadata) : m.create.Versioned := by
  intro _
  rw [held_create_version, Option.isSome_some]

private theorem versioned_after_set (hm : m.Versioned) (k value : Option String) :
    (m.after (.set k value)).2.Versioned := by
  intro hchanged
  rw [held_after_set, Option.isSome_or, Bool.or_eq_true]
  refine .inr (hm ?_)
  cases htable : m.table with
  | none => simp [after, settle, set, htable] at hchanged
  | some rows => rfl

private theorem versioned_after (hm : m.Versioned) (step : StoreStep) :
    (m.after step).2.Versioned := by
  obtain ⟨laid, hlaid, hstep⟩ := after_cases m step
  have hversioned : laid.Versioned := by
    rcases hlaid with rfl | rfl
    · exact hm
    · exact versioned_create m
  rcases hstep with ⟨hleft, -⟩ | ⟨k, value, hset, -⟩
  · rwa [hleft]
  · rw [hset]
    exact versioned_after_set hversioned k value

private theorem eq_empty_of_versioned (hm : m.Versioned) (hversion : m.version = .ok none) :
    m = {} := by
  cases htable : m.table with
  | none => exact congrArg Metadata.mk htable
  | some rows =>
    have hheld := hm (by rw [htable, Option.isSome_some])
    rw [held_of_version_eq_none hversion] at hheld
    cases hheld

private theorem settle_of_refused {r : Except StoreFault Metadata} {fault : StoreFault}
    (hrefused : (m.settle r).1 = .error fault) : (m.settle r).2 = m := by
  cases r with
  | error cause => rfl
  | ok changed => cases hrefused

/-- A step that is refused leaves the state as it was, unless it opened an empty store to write a
last query that is missing. -/
theorem after_of_refused (hm : m.Versioned) {step : StoreStep} {fault : StoreFault}
    (hrefused : (m.after step).1 = .error fault) :
    (m.after step).2 = m ∨
      step = .setLast none ∧ m = {} ∧ m.migrate = .ok (m.after step).2 := by
  cases step with
  | create => cases hrefused
  | migrate => exact .inl (settle_of_refused hrefused)
  | version => exact .inl rfl
  | get k => exact .inl rfl
  | set k value => exact .inl (settle_of_refused hrefused)
  | last =>
    rw [after_last] at hrefused ⊢
    cases hlast : m.lastQuery with
    | error cause => exact .inl rfl
    | ok found => simp [hlast] at hrefused
  | setLast query =>
    rw [after_setLast] at hrefused ⊢
    cases hopened : m.migrate with
    | error cause => exact .inl rfl
    | ok opened =>
      rw [hopened] at hrefused
      -- The store is open, so a text would have been written.
      obtain ⟨rows, hrows⟩ := exists_table_of_migrate hopened
      cases query with
      | some query => simp [after, settle, set, hrows] at hrefused
      | none =>
        rw [show (opened.after (.set lastQueryKey none)).2 = opened from settle_of_refused hrefused]
        obtain ⟨hversion, rfl⟩ | ⟨-, rfl⟩ := migrate_eq_ok_iff.mp hopened
        · exact .inr ⟨rfl, eq_empty_of_versioned hm hversion, rfl⟩
        · exact .inl rfl

/-! ## The map of a store -/

/-- The map of the rows, if there is a table. -/
def view (m : Metadata) : Option TextMap :=
  m.table.map fun rows ↦ (rows.map fun row ↦ (⟨row.1, row.2⟩ : Σ _ : String, String)).toFinmap

theorem lookup_toFinmap (key : String) (rows : List (String × String)) :
    ((rows.map fun row ↦ (⟨row.1, row.2⟩ : Σ _ : String, String)).toFinmap).lookup key =
      read? key rows := by
  rw [Finmap.dlookup_list_toFinmap]
  induction rows with
  | nil => rfl
  | cons row rest ih =>
    by_cases hkey : row.1 = key
    · subst hkey
      simp [read?, List.dlookup_cons_eq]
    · rw [List.map_cons, List.dlookup_cons_ne _ _ (Ne.symm hkey), ih]
      simp [read?, hkey]

theorem lookup_view (m : Metadata) (key : String) : m.view.bind (·.lookup key) = m.held key := by
  unfold view held
  cases m.table with
  | none => rfl
  | some rows => exact lookup_toFinmap key rows

theorem view_write (key value : String) (rows : List (String × String)) :
    (Metadata.mk (some (write key value rows))).view =
      some (((Metadata.mk (some rows)).view.getD ∅).insert key value) := by
  refine congrArg some (Finmap.ext_lookup fun other ↦ ?_)
  rw [lookup_toFinmap]
  by_cases hkey : other = key
  · rw [hkey, read?_write, Finmap.lookup_insert]
  · rw [read?_write_of_ne value rows hkey, Finmap.lookup_insert_of_ne _ hkey]
    exact (lookup_toFinmap other rows).symm

theorem view_create (m : Metadata) : m.create.view = some (TextMap.created m.view) := by
  obtain ⟨_ | rows⟩ := m
  · exact view_write schemaVersionKey (toString schemaVersion) []
  · exact view_write schemaVersionKey (toString schemaVersion) rows

theorem version_view (m : Metadata) : TextMap.version m.view = m.version := by
  rw [version_eq, TextMap.version, lookup_view]

private theorem opened_of_error {fault : StoreFault} (hrefused : m.migrate = .error fault) :
    TextMap.opened m.view = .error fault := by
  rw [TextMap.opened, version_view]
  cases hversion : m.version with
  | error cause => simpa [migrate, hversion, Except.map] using hrefused
  | ok version => simp [migrate, hversion, Except.map] at hrefused

theorem opened_of_migrate (hopened : m.migrate = .ok opened) :
    ∃ map, opened.view = some map ∧ TextMap.opened m.view = .ok map := by
  obtain ⟨rows, hrows⟩ := exists_table_of_migrate hopened
  rw [TextMap.opened, version_view]
  obtain ⟨hversion, rfl⟩ | ⟨⟨n, hversion⟩, rfl⟩ := migrate_eq_ok_iff.mp hopened
  · exact ⟨_, view_create m, by rw [hversion]; rfl⟩
  · exact ⟨_, congrArg _ hrows, by simp [hversion, Except.map, view, hrows]⟩

/-! ## Steps of the map -/

private theorem table_eq_none_of_view (hview : m.view = none) : m.table = none :=
  Option.map_eq_none_iff.mp hview

theorem get_of_view {map : TextMap} (hview : m.view = some map) (key : Option String) :
    m.get key = .ok (key.bind map.lookup) := by
  obtain ⟨rows, hrows, rfl⟩ := Option.map_eq_some_iff.mp hview
  rw [get, hrows]
  exact congrArg (fun f ↦ Except.ok (key.bind f)) (funext fun key ↦ (lookup_toFinmap key rows).symm)

private theorem after_set_of_view {map : TextMap} (hview : m.view = some map)
    (key value : Option String) :
    TextMap.after (some map) (.set key value) =
      ((m.after (.set key value)).1, (m.after (.set key value)).2.view) := by
  obtain ⟨rows, hrows, -⟩ := Option.map_eq_some_iff.mp hview
  obtain rfl : m = ⟨some rows⟩ := congrArg Metadata.mk hrows
  cases value with
  | none => rw [← hview]; rfl
  | some value =>
    cases key with
    | none => rw [← hview]; rfl
    | some key =>
      have hwritten := view_write key value rows
      rw [hview, Option.getD_some] at hwritten
      exact congrArg (Prod.mk _) hwritten.symm

private theorem after_view (m : Metadata) (step : StoreStep) :
    TextMap.after m.view step = ((m.after step).1, (m.after step).2.view) := by
  cases step with
  | create => rw [TextMap.after, after, view_create]
  | migrate =>
    rw [TextMap.after, after]
    cases hopened : m.migrate with
    | error fault => rw [opened_of_error hopened]; rfl
    | ok opened =>
      obtain ⟨map, hmap, hview⟩ := opened_of_migrate hopened
      rw [hview]
      exact congrArg (Prod.mk _) hmap.symm
  | version => rw [TextMap.after, after, version_view]
  | get key =>
    rw [after]
    cases hview : m.view with
    | none => simp [TextMap.after, get, table_eq_none_of_view hview, Except.map]
    | some map => rw [get_of_view hview]; rfl
  | set key value =>
    cases hview : m.view with
    | none => simp [TextMap.after, after, set, settle, table_eq_none_of_view hview, hview]
    | some map => exact after_set_of_view hview key value
  | last =>
    rw [TextMap.after, after]
    cases hopened : m.migrate with
    | error fault => rw [opened_of_error hopened]
    | ok opened =>
      obtain ⟨map, hmap, hview⟩ := opened_of_migrate hopened
      simp only [hview, get_of_view hmap, ← hmap]
      rfl
  | setLast query =>
    rw [TextMap.after, after_setLast]
    cases hopened : m.migrate with
    | error fault => rw [opened_of_error hopened]
    | ok opened =>
      obtain ⟨map, hmap, hview⟩ := opened_of_migrate hopened
      have hset := after_set_of_view hmap lastQueryKey query
      rw [hview]
      cases query <;> exact hset

/-! ## Runs -/

/-- **The store refines a finite map.** A run of the store is a run of its map: the replies are the
same, and so is what is there after it. -/
theorem runSteps_view (m : Metadata) (steps : List StoreStep) :
    runSteps TextMap.after m.view steps =
      ((runSteps after m steps).1, (runSteps after m steps).2.view) := by
  induction steps generalizing m with
  | nil => rfl
  | cons step rest ih => simp only [runSteps, after_view, ih]

theorem writesTo_cons (key : String) (step : StoreStep) (steps : List StoreStep)
    (reply : Except StoreFault StoreReply) (replies : List (Except StoreFault StoreReply)) :
    writesTo key (step :: steps) (reply :: replies) =
      (step.wrote key reply).toList ++ writesTo key steps replies := by
  cases hwrote : step.wrote key reply <;> simp [writesTo, hwrote]

private theorem versioned_runSteps (hm : m.Versioned) (steps : List StoreStep) :
    (runSteps after m steps).2.Versioned := by
  induction steps generalizing m with
  | nil => exact hm
  | cons step rest ih => exact ih (versioned_after hm step)

/-- After a run a key has the text that the run wrote to it last. -/
theorem held_runSteps (m : Metadata) (steps : List StoreStep) (hkey : key ≠ schemaVersionKey) :
    (runSteps after m steps).2.held key =
      (writesTo key steps (runSteps after m steps).1).getLast?.or (m.held key) := by
  induction steps generalizing m with
  | nil => rfl
  | cons step rest ih =>
    simp only [runSteps]
    rw [ih, held_after m step hkey, ← Option.or_assoc, writesTo_cons, List.getLast?_append]
    cases step.wrote key (m.after step).1 <;> rfl

/-- The last query that is read is the one that was written last, if one was. -/
theorem reply_last (steps : List StoreStep) {reply : StoreReply}
    (hreply : ((runSteps after {} steps).2.after .last).1 = .ok reply) :
    reply = .text (writesTo lastQueryKey steps (runSteps after {} steps).1).getLast? := by
  have hkey : lastQueryKey ≠ schemaVersionKey := by decide
  have hheld := held_runSteps {} steps hkey
  rw [show held {} lastQueryKey = none from rfl, Option.or_none] at hheld
  rw [after] at hreply
  cases hopened : (runSteps after {} steps).2.migrate with
  | error fault => simp [hopened] at hreply
  | ok opened =>
    obtain ⟨map, hmap, -⟩ := opened_of_migrate hopened
    rw [hopened] at hreply
    simp only [get_of_view hmap, Except.map, Except.ok.injEq] at hreply
    have hlast := lookup_view opened lastQueryKey
    rw [hmap, Option.bind_some] at hlast
    rw [← hreply, ← hheld, ← held_of_migrate hopened hkey, ← hlast]
    rfl

/-- **What a store keeps.** From an empty store on, every run of steps has the replies of a run of
finite maps and leaves the map of its state. Whatever the steps were, a step that is refused
afterwards leaves the state as it is, unless it opened an empty store to write a last query that is
missing; opening is idempotent and changes nothing where the version can be read; creating and
opening leave every other key alone; and the last query, where it can be read, is the one that was
written last. -/
theorem store_keeps_map (steps : List StoreStep) :
    let replies := (runSteps after {} steps).1
    let m := (runSteps after {} steps).2
    runSteps TextMap.after none steps = (replies, m.view) ∧
      (∀ step fault, (m.after step).1 = .error fault →
        (m.after step).2 = m ∨
          step = .setLast none ∧ m = {} ∧ m.migrate = .ok (m.after step).2) ∧
      (m.after .migrate).2.after .migrate = m.after .migrate ∧
      (∀ n, m.version = .ok (some n) → m.after .migrate = (.ok .done, m)) ∧
      (∀ step, step = .create ∨ step = .migrate → ∀ key, key ≠ schemaVersionKey →
        (m.after step).2.view.bind (·.lookup key) = m.view.bind (·.lookup key)) ∧
      ∀ reply, (m.after .last).1 = .ok reply →
        reply = .text (writesTo lastQueryKey steps replies).getLast? := by
  intro replies m
  refine ⟨runSteps_view {} steps, fun step fault ↦ ?_, after_migrate_idem m, fun n ↦ ?_, ?_,
    fun reply ↦ reply_last steps⟩
  · exact after_of_refused (versioned_runSteps (by intro h; cases h) steps)
  · intro hversion
    rw [after, migrate_of_version hversion, settle]
  · rintro step hstep key hkey
    have hwritten : step.written key = none := by
      rcases hstep with rfl | rfl <;> rfl
    rw [lookup_view, lookup_view, held_after m step hkey, StoreStep.wrote_of_written hwritten,
      Option.none_or]

end Metadata

end SceneSearch
