import SceneSearch.Number.Literal
import SceneSearch.Search.Log
import SceneSearch.Search.Order
import SceneSearch.Search.Watch
import SceneSearch.Query.Plan

/-!
# Traces

What a search does can be told apart from what may become of it. On its way it looks at the cancel
flag, visits nodes, asks the host for children, and writes records; none of this changes what it
finds. So a search is first a *trace*: these events in order, and the result at the end. Running
it means going through the events under a monitor, which cancels at a yield or loses the host at
some request. The run ends at the first event that fails, or with the result of the trace; what
comes after that event is not worked out, so a search that goes round in a circle can be stopped.
-/

namespace SceneSearch

/-! ## Failures -/

/-- Why a search fails. -/
inductive SearchFault where
  /-- It was cancelled. -/
  | cancelled
  /-- The host failed, with its own words. -/
  | hostFailed (message : String)
  /-- An index has too many digits. -/
  | indexTooLong (cause : TooManyDigits)
  /-- The rows of the candidates cannot be measured. -/
  | rows (cause : FloorFault)
  /-- A rank is out of range. -/
  | outOfRange (cause : RankPick.OutOfRange)
  /-- There is no cadence. -/
  | noCadence
deriving DecidableEq, Repr

def SearchFault.message : SearchFault → String
  | cancelled => WatchFault.cancelled.message
  | hostFailed message => message
  | indexTooLong cause => cause.message
  | rows cause => cause.message
  | outOfRange cause => cause.message
  | noCadence => WatchFault.zeroInterval.message

/-- What a watch ends a search with. -/
def SearchFault.ofWatch : WatchFault → SearchFault
  | .cancelled => .cancelled
  | .zeroInterval => .noCadence

/-! ## Traces -/

/-- What a search does on its way. -/
inductive Event where
  /-- It looks at the cancel flag. -/
  | check
  /-- It visits a node. -/
  | visit
  /-- It asks the host for the children of a node, which hides those of instances or not. -/
  | request (hidesInstanceChildren : Bool)
  /-- It writes a record. -/
  | note (record : LogRecord)
deriving DecidableEq, Repr

/-- Events one after another, and a result after the last one. What follows an event is not worked
out before it is asked for. -/
inductive Trace (α : Type) where
  /-- The end, with its result. -/
  | done (result : Except SearchFault α)
  /-- An event, and what follows it. -/
  | step (event : Event) (next : Unit → Trace α)

namespace Trace

variable {α β : Type}

def events : Trace α → List Event
  | done _ => []
  | step event next => event :: (next ()).events

def result : Trace α → Except SearchFault α
  | done result => result
  | step _ next => (next ()).result

/-- One trace after another. -/
def andThen (f : α → Trace β) : Trace α → Trace β
  | done (.error e) => done (.error e)
  | done (.ok a) => f a
  | step event next => step event fun _ ↦ (next ()).andThen f

instance : Monad Trace where
  pure a := done (.ok a)
  bind t f := t.andThen f

theorem andThen_assoc {γ : Type} (t : Trace α) (f : α → Trace β) (g : β → Trace γ) :
    (t.andThen f).andThen g = t.andThen fun a ↦ (f a).andThen g := by
  induction t with
  | done result => cases result <;> rfl
  | step event next ih =>
    simp only [andThen]
    congr
    funext u
    exact ih u

theorem andThen_pure (t : Trace α) : t.andThen (fun a ↦ done (.ok a)) = t := by
  induction t with
  | done result => cases result <;> rfl
  | step event next ih =>
    simp only [andThen]
    congr
    funext u
    exact ih u

instance : LawfulMonad Trace :=
  LawfulMonad.mk' Trace andThen_pure (fun _ _ ↦ rfl) andThen_assoc

/-- A trace after another one has the events of both, unless the first one fails. -/
theorem events_andThen (t : Trace α) (f : α → Trace β) :
    (t.andThen f).events =
      match t.result with
      | .error _ => t.events
      | .ok a => t.events ++ (f a).events := by
  induction t with
  | done result => cases result <;> rfl
  | step event next ih =>
    simp only [andThen, events, result, ih]
    cases (next ()).result <;> rfl

theorem result_andThen (t : Trace α) (f : α → Trace β) :
    (t.andThen f).result =
      match t.result with
      | .error e => .error e
      | .ok a => (f a).result := by
  induction t with
  | done result => cases result <;> rfl
  | step event next ih => simp only [andThen, result, ih]

def visits (t : Trace α) : Nat := t.events.count .visit

end Trace

/-! ## Monitors -/

/-- What goes through the events of a search. -/
structure Monitor where
  /-- What watches over the search. -/
  watch : Watch := {}
  /-- From which request on the host fails, and with which words. -/
  failure : Option (Nat × String) := none
  /-- How many requests were made. -/
  requests : Nat := 0
  /-- Whether a request was made that did not hide children of instances. -/
  unskipped : Bool := false
  /-- Whether a request was made that hid them. -/
  skipped : Bool := false
  /-- The records that were written. -/
  log : List LogRecord := []

namespace Monitor

def note (m : Monitor) (level : LogLevel) (message : String) : Monitor :=
  { m with log := m.log ++ [⟨level, message⟩] }

def check (m : Monitor) : Except SearchFault Unit := m.watch.check.mapError .ofWatch

def request (m : Monitor) (hides : Bool) : Except SearchFault Unit × Monitor :=
  let m := { m with
    requests := m.requests + 1, unskipped := m.unskipped || !hides, skipped := m.skipped || hides }
  match m.failure with
  | none => (.ok (), m)
  | some (first, message) =>
    if first ≤ m.requests then (.error (.hostFailed message), m) else (.ok (), m)

/-- Goes through one event. -/
def step (m : Monitor) : Event → Except SearchFault Unit × Monitor
  | .check => (m.check, m)
  | .visit => (m.watch.visit.1.mapError .ofWatch, { m with watch := m.watch.visit.2 })
  | .request hides => m.request hides
  | .note record => (.ok (), { m with log := m.log ++ [record] })

/-- Goes through events until one fails. -/
def replay (m : Monitor) : List Event → Except SearchFault Unit × Monitor
  | [] => (.ok (), m)
  | e :: rest =>
    match m.step e with
    | (.error fault, m) => (.error fault, m)
    | (.ok (), m) => m.replay rest

def run {α : Type} (m : Monitor) : Trace α → Except SearchFault α × Monitor
  | .done result => (result, m)
  | .step event next =>
    match m.step event with
    | (.error fault, m) => (.error fault, m)
    | (.ok (), m) => m.run (next ())

/-! ## Small laws -/

/-- Running a search is going through its events, and giving its result if none of them fails. -/
theorem run_eq_replay {α : Type} (m : Monitor) (t : Trace α) :
    m.run t =
      match m.replay t.events with
      | (.error fault, m) => (.error fault, m)
      | (.ok (), m) => (t.result, m) := by
  induction t generalizing m with
  | done result => rfl
  | step event next ih =>
    simp only [run, Trace.events, Trace.result, replay]
    split
    · rfl
    · exact ih () _

end Monitor

end SceneSearch
