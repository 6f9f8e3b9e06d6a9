/-!
# Watching a search

A search can be cancelled while it runs, and tells how far it has come. Both happen at a fixed
cadence: every so many visited nodes the progress hook is told the count, and may cancel; then the
cancel flag is looked at. Searches that go through hidden layers visit many more nodes and yield
more often.
-/

namespace SceneSearch

/-! ## Cadence -/

def yieldInterval : Nat := 300

def yieldIntervalHidden : Nat := 50

/-- Visits between two yields of a search. -/
def yieldIntervalFor (includesHidden : Bool) : Nat :=
  if includesHidden then yieldIntervalHidden else yieldInterval

/-! ## The watch -/

/-- What watches over a search. -/
structure Watch where
  /-- Visits between two yields; the sign does not matter. -/
  yieldEvery : Int := yieldInterval
  /-- The progress hook: it is told a count, and says whether it cancels. -/
  hook : Option (Nat → Bool) := none
  /-- Nodes visited so far. -/
  visited : Nat := 0
  /-- The counts that the hook was told. -/
  progress : List Nat := []
  /-- Whether the search was cancelled. -/
  cancelled : Bool := false

/-- Why a watch ends a search. -/
inductive WatchFault where
  /-- The search was cancelled. -/
  | cancelled
  /-- There is no cadence with an interval of zero. -/
  | zeroInterval
deriving DecidableEq, Repr

def WatchFault.message : WatchFault → String
  | cancelled => ""
  | zeroInterval => "integer modulo by zero"

namespace Watch

/-- Ends a search that was cancelled. -/
def check (w : Watch) : Except WatchFault Unit :=
  if w.cancelled then .error .cancelled else .ok ()

def cancel (w : Watch) : Watch := { w with cancelled := true }

/-- Tells the hook the count. -/
def tell (w : Watch) : Watch :=
  match w.hook with
  | none => w
  | some hook =>
    { w with progress := w.progress ++ [w.visited], cancelled := w.cancelled || hook w.visited }

/-- Counts a visit, and yields if it is time to. -/
def visit (w : Watch) : Except WatchFault Unit × Watch :=
  let w := { w with visited := w.visited + 1 }
  if w.yieldEvery = 0 then (.error .zeroInterval, w)
  -- a hook that cancels ends the search at this very visit
  else if w.visited % w.yieldEvery.natAbs = 0 then (w.tell.check, w.tell)
  else (.ok (), w)

/-- Counts visits until one ends the search. -/
def visits (w : Watch) : Nat → Except WatchFault Unit × Watch
  | 0 => (.ok (), w)
  | n + 1 =>
    match w.visit with
    | (.error e, w) => (.error e, w)
    | (.ok (), w) => w.visits n

end Watch

end SceneSearch
