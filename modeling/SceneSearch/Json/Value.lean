/-!
# JSON values

Exports, requests and answers are JSON. Two things that JSON texts distinguish are kept apart here,
because messages show them: an integer is not a double with the same value, and the entries of an
object stand in the order in which their keys were first written.
-/

namespace SceneSearch

inductive Json where
  | null
  | bool (value : Bool)
  | int (value : Int)
  | float (value : Float)
  | string (value : String)
  | array (items : List Json)
  | object (entries : List (String × Json))
deriving Inhabited

namespace Json

/-! ## Entries of an object -/

/-- The entries with `key` set to `value`: a new key goes last, a known one keeps its place. -/
def setEntry (key : String) (value : Json) : List (String × Json) → List (String × Json)
  | [] => [(key, value)]
  | (k, v) :: rest => if k = key then (k, value) :: rest else (k, v) :: setEntry key value rest

def getEntry? (key : String) (entries : List (String × Json)) : Option Json :=
  (entries.find? fun e ↦ e.1 == key).map Prod.snd

/-- The value of a key of an object; other values have none. -/
def get? (v : Json) (key : String) : Option Json :=
  match v with
  | object entries => getEntry? key entries
  | _ => none

def isObject : Json → Bool
  | object _ => true
  | _ => false

theorem sizeOf_lt_of_get? {v w : Json} {key : String} (h : v.get? key = some w) :
    sizeOf w < sizeOf v := by
  cases v with
  | object entries =>
    obtain ⟨e, hfind, rfl⟩ := Option.map_eq_some_iff.mp h
    obtain ⟨k, w⟩ := e
    have hlt := List.sizeOf_lt_of_mem (List.mem_of_find?_eq_some hfind)
    simp only [Prod.mk.sizeOf_spec, object.sizeOf_spec] at hlt ⊢
    omega
  | _ => cases h

/-! ## Truth -/

/-- Whether a value counts as something: null, false, zero and everything empty count as nothing. -/
def isTruthy : Json → Bool
  | null => false
  | bool value => value
  | int value => value != 0
  | float value => !(value == 0)
  | string value => !value.isEmpty
  | array items => !items.isEmpty
  | object entries => !entries.isEmpty

end Json

end SceneSearch
