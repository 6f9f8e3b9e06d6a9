/-!
# Least recently used caches

A cache keeps a bounded number of entries and forgets the one that was not used for the longest
time. It saves work and nothing else: whoever uses it can compute every value again. Entries are
kept in the order of their last use, the latest first, so that forgetting is taking the first ones.

A key may be stored with nothing as its value. Looking it up counts as a hit, but gives nothing,
and so whoever wants a value computes it again.
-/

namespace SceneSearch

/-! ## The cache -/

/-- A cache of at most `capacity` entries. -/
structure LruCache (κ υ : Type) where
  /-- How many entries are kept. -/
  capacity : Nat
  /-- There is room for one entry at least. -/
  capacity_pos : 0 < capacity
  /-- The entries, the latest used first. -/
  entries : List (κ × Option υ) := []
  /-- How many lookups found their key. -/
  hits : Nat := 0
  /-- How many lookups did not. -/
  misses : Nat := 0

/-- The refusal of a capacity below one. -/
structure CapacityFault where
  /-- The capacity that was asked for. -/
  capacity : Int
deriving DecidableEq, Repr

def CapacityFault.message (e : CapacityFault) : String :=
  "Cache capacity must be positive, got " ++ toString e.capacity

namespace LruCache

variable {κ υ : Type}

def create (capacity : Int) : Except CapacityFault (LruCache κ υ) :=
  if h : 1 ≤ capacity then .ok { capacity := capacity.toNat, capacity_pos := by omega }
  else .error ⟨capacity⟩

/-- An empty cache of a capacity that is known to be positive. -/
def empty (capacity : Nat) (h : 0 < capacity := by decide) : LruCache κ υ :=
  { capacity, capacity_pos := h }

def size (c : LruCache κ υ) : Nat := c.entries.length

variable [BEq κ]

/-- Whether a key is stored. This is no use of the key. -/
def contains (c : LruCache κ υ) (key : κ) : Bool := c.entries.any (·.1 == key)

/-- The value of a key, which is used by that. -/
def get (c : LruCache κ υ) (key : κ) : Option υ × LruCache κ υ :=
  match c.entries.find? (·.1 == key) with
  | none => (none, { c with misses := c.misses + 1 })
  | some entry =>
    -- a key without a value is found, and the caller takes it for one that is not
    (entry.2, { c with
      entries := entry :: c.entries.filter (!·.1 == key), hits := c.hits + 1 })

/-- Stores a value, which uses its key, and forgets what there is no more room for. -/
def put (c : LruCache κ υ) (key : κ) (value : Option υ) : LruCache κ υ :=
  { c with entries := ((key, value) :: c.entries.filter (!·.1 == key)).take c.capacity }

/-- The value of a key, or a computed one, which is stored; and whether it was computed. -/
def getOrCompute (c : LruCache κ υ) (key : κ) (compute : Unit → Option υ) :
    Option υ × Bool × LruCache κ υ :=
  match c.get key with
  | (some value, c) => (some value, false, c)
  | (none, c) =>
    let value := compute ()
    (value, true, c.put key value)

omit [BEq κ] in
/-- Forgets all entries; the counts of lookups go on. -/
def clear (c : LruCache κ υ) : LruCache κ υ := { c with entries := [] }

omit [BEq κ] in
/-- Changes all stored values. -/
def mapValues (c : LruCache κ υ) (f : υ → υ) : LruCache κ υ :=
  { c with entries := c.entries.map fun e ↦ (e.1, e.2.map f) }

/-! ## Small laws -/

/-- Looking a key up stores nothing new. -/
theorem mem_of_mem_get {c : LruCache κ υ} {key : κ} {entry : κ × Option υ}
    (h : entry ∈ (c.get key).2.entries) : entry ∈ c.entries := by
  rw [get] at h
  split at h
  · exact h
  · rename_i found hfound
    rcases List.mem_cons.mp h with rfl | h
    · exact List.mem_of_find?_eq_some hfound
    · exact (List.mem_filter.mp h).1

/-- What a lookup gives is stored with the key. -/
theorem mem_of_get [LawfulBEq κ] {c : LruCache κ υ} {key : κ} {value : υ}
    (h : (c.get key).1 = some value) : (key, some value) ∈ c.entries := by
  rw [get] at h
  split at h
  · cases h
  · rename_i found hfound
    have hkey : found.1 = key := by simpa using List.find?_some hfound
    rw [← hkey, ← h]
    exact List.mem_of_find?_eq_some hfound

/-- Where every key is stored with a value, a lookup that gives nothing changes no entry. -/
theorem entries_get_of_none {c : LruCache κ υ} {key : κ}
    (hsome : ∀ entry ∈ c.entries, entry.2.isSome = true) (h : (c.get key).1 = none) :
    (c.get key).2.entries = c.entries := by
  rw [get] at h ⊢
  split at h
  · rfl
  · rename_i found hfound
    have hnone : found.2 = none := h
    have hvalue := hsome found (List.mem_of_find?_eq_some hfound)
    rw [hnone] at hvalue
    cases hvalue

/-- Storing stores nothing but the value. -/
theorem mem_of_mem_put {c : LruCache κ υ} {key : κ} {value : Option υ} {entry : κ × Option υ}
    (h : entry ∈ (c.put key value).entries) : entry = (key, value) ∨ entry ∈ c.entries := by
  rcases List.mem_cons.mp (List.mem_of_mem_take h) with h | h
  · exact Or.inl h
  · exact Or.inr (List.mem_filter.mp h).1

omit [BEq κ] in
theorem mem_mapValues {c : LruCache κ υ} {f : υ → υ} {entry : κ × Option υ} :
    entry ∈ (c.mapValues f).entries ↔ ∃ e ∈ c.entries, (e.1, e.2.map f) = entry :=
  List.mem_map

omit [BEq κ] in
theorem entries_of_create {capacity : Int} {c : LruCache κ υ} (h : create capacity = .ok c) :
    c.entries = [] := by
  rw [create] at h
  split at h
  · cases h
    rfl
  · cases h

end LruCache

end SceneSearch
