import SceneSearch.Proofs.Search.Occurrences
import SceneSearch.Search.Cache

/-!
# What a cache keeps

A cache forgets as it goes, so what it keeps is compared with what someone remembers who forgets
nothing: the keys in the order in which they were touched, and the values in the order in which
they were stored. A cache with room for `n` entries keeps the `n` keys that were touched latest,
each with the value that was stored last for it. Storing a value touches its key, and so does
looking up a key that is kept; asking whether a key is kept does not.

One use of the cache is followed on both sides. The only fact about lists that is needed is that
forgetting what there is no room for commutes with moving a key to the front: a key that has been
forgotten is not among those that come before the last one kept.
-/

namespace SceneSearch

/-! ## Uses -/

/-- One use of a cache. -/
inductive CacheUse (κ υ : Type) where
  | get (key : κ)
  | contains (key : κ)
  | put (key : κ) (value : Option υ)
  | getOrCompute (key : κ) (compute : Unit → Option υ)
  | clear

namespace CacheUse

variable {κ υ : Type}

/-- Whether a key is looked up, which counts as a hit or as a miss. -/
def looksUp : CacheUse κ υ → Bool
  | .get _ => true
  | .getOrCompute _ _ => true
  | _ => false

/-- Values are only stored where they are computed, and are what `f` gives for their keys. -/
def Yields (f : κ → Option υ) : CacheUse κ υ → Prop
  | .put _ _ => False
  | .getOrCompute key compute => compute () = f key
  | _ => True

end CacheUse

namespace LruCache

variable {κ υ : Type} [BEq κ]

/-- The cache after one use. -/
def after (c : LruCache κ υ) : CacheUse κ υ → LruCache κ υ
  | .get key => (c.get key).2
  | .contains _ => c
  | .put key value => c.put key value
  | .getOrCompute key compute => (c.getOrCompute key compute).2.2
  | .clear => c.clear

/-- The cache after some uses, one after the other. -/
def afterAll (c : LruCache κ υ) (uses : List (CacheUse κ υ)) : LruCache κ υ := uses.foldl after c

end LruCache

/-! ## The past of a cache -/

/-- What was done with a cache, the latest first. -/
structure CachePast (κ υ : Type) where
  /-- The keys that were touched since the cache was cleared. -/
  touched : List κ := []
  /-- The values that were ever stored, with their keys. -/
  stored : List (κ × Option υ) := []

namespace CachePast

variable {κ υ : Type} [BEq κ]

/-- The keys that were touched latest, each once, and at most `n` of them. -/
def latest (past : CachePast κ υ) (n : Nat) : List κ :=
  (firstOccurrences (fun key ↦ key) [] past.touched).take n

/-- The value that was last stored for a key, if one was. -/
def lastStored? (past : CachePast κ υ) (key : κ) : Option (Option υ) :=
  (past.stored.find? (·.1 == key)).map Prod.snd

/-- What looking a key up gives where `n` entries are kept. -/
def value? (past : CachePast κ υ) (n : Nat) (key : κ) : Option υ :=
  if (past.latest n).contains key then (past.lastStored? key).join else none

omit [BEq κ] in
def touch (past : CachePast κ υ) (key : κ) : CachePast κ υ :=
  { past with touched := key :: past.touched }

omit [BEq κ] in
def store (past : CachePast κ υ) (key : κ) (value : Option υ) : CachePast κ υ :=
  ⟨key :: past.touched, (key, value) :: past.stored⟩

private theorem lastStored?_store (past : CachePast κ υ) (key : κ) (value : Option υ) (k : κ) :
    (past.store key value).lastStored? k =
      if key == k then some value else past.lastStored? k := by
  rw [lastStored?, store, List.find?_cons, lastStored?]
  cases key == k <;> rfl

/-- The past after one more use, where `n` entries are kept. -/
def after (n : Nat) (past : CachePast κ υ) : CacheUse κ υ → CachePast κ υ
  | .get key => if (past.latest n).contains key then past.touch key else past
  | .contains _ => past
  | .put key value => past.store key value
  | .getOrCompute key compute =>
    match past.value? n key with
    | some _ => past.touch key
    | none => past.store key (compute ())
  | .clear => { past with touched := [] }

/-- The past of a cache with room for `n` entries that was empty before some uses. -/
def ofUses (n : Nat) (uses : List (CacheUse κ υ)) : CachePast κ υ := uses.foldl (after n) {}

end CachePast

/-! ## Moving a key to the front -/

section

variable {κ : Type} [BEq κ] [LawfulBEq κ]

private theorem firstOccurrences_cons_eq (key : κ) (keys : List κ) :
    firstOccurrences (fun k ↦ k) [] (key :: keys) =
      key :: (firstOccurrences (fun k ↦ k) [] keys).filter (!· == key) := by
  have hkeep : ∀ a ∈ keys, ∀ b ∈ keys, a = b → (!a == key) = !b == key := by
    rintro a _ _ _ rfl
    rfl
  have hnone : ∀ k ∈ firstOccurrences (fun k ↦ k) [key] keys, (!k == key) = true := by
    intro k hk
    have hnew := (mem_keys_firstOccurrences.mp (List.mem_map_of_mem (f := fun k ↦ k) hk)).2
    simpa using hnew
  refine congrArg (key :: ·) ?_
  calc firstOccurrences (fun k ↦ k) [key] keys
      = (firstOccurrences (fun k ↦ k) [key] keys).filter (!· == key) :=
        (List.filter_eq_self.mpr hnone).symm
    _ = firstOccurrences (fun k ↦ k) [key] (keys.filter (!· == key)) :=
        (firstOccurrences_filter hkeep fun _ _ _ ↦ Iff.rfl).symm
    _ = (firstOccurrences (fun k ↦ k) [] keys).filter (!· == key) :=
        firstOccurrences_filter hkeep (by simp)

/-- A key that is taken out of a list without repetitions leaves room for one more, and nothing
else changes in front of that one. -/
theorem take_filter_take {keys : List κ} (hnodup : keys.Nodup) (key : κ) (n : Nat) :
    ((keys.take (n + 1)).filter (!· == key)).take n = (keys.filter (!· == key)).take n := by
  induction keys generalizing n with
  | nil => rfl
  | cons k rest ih =>
    obtain ⟨hk, hrest⟩ := List.nodup_cons.mp hnodup
    rw [List.take_succ_cons]
    by_cases heq : (k == key) = true
    · obtain rfl := beq_iff_eq.mp heq
      have hself : ∀ keys : List κ, keys.Sublist rest → keys.filter (!· == k) = keys := by
        refine fun keys hsub ↦ List.filter_eq_self.mpr fun a ha ↦ ?_
        have hne : a ≠ k := fun h ↦ hk (h ▸ hsub.subset ha)
        simpa using hne
      rw [List.filter_cons_of_neg (by simp), List.filter_cons_of_neg (by simp),
        hself _ (List.take_sublist ..), hself _ (.refl rest), List.take_take, Nat.min_self]
    · rw [List.filter_cons_of_pos (by simpa using heq),
        List.filter_cons_of_pos (by simpa using heq)]
      cases n with
      | zero => rfl
      | succ n => rw [List.take_succ_cons, List.take_succ_cons, ih hrest]

end

/-! ## One use -/

namespace LruCache

variable {κ υ : Type} [BEq κ]

/-- The cache keeps what was touched latest, with the values that were stored last. -/
structure Recalls (c : LruCache κ υ) (past : CachePast κ υ) : Prop where
  /-- The keys are those that were touched latest, in that order. -/
  keys : c.entries.map Prod.fst = past.latest c.capacity
  /-- The values are those that were stored last. -/
  values : ∀ entry ∈ c.entries, past.lastStored? entry.1 = some entry.2

@[simp] theorem capacity_get (c : LruCache κ υ) (key : κ) :
    (c.get key).2.capacity = c.capacity := by
  rw [get]
  split
  · rfl
  · rfl

@[simp] theorem capacity_put (c : LruCache κ υ) (key : κ) (value : Option υ) :
    (c.put key value).capacity = c.capacity := rfl

theorem entries_put (c : LruCache κ υ) (key : κ) (value : Option υ) :
    (c.put key value).entries =
      ((key, value) :: c.entries.filter (!·.1 == key)).take c.capacity := rfl

private theorem entries_put_get (c : LruCache κ υ) (key : κ) (value : Option υ) :
    ((c.get key).2.put key value).entries = (c.put key value).entries := by
  rw [entries_put, entries_put, capacity_get, get]
  split
  · rfl
  · rename_i entry hfind
    have hkey := List.find?_some hfind
    simp [hkey]

private theorem lookups_get (c : LruCache κ υ) (key : κ) :
    (c.get key).2.hits + (c.get key).2.misses = c.hits + c.misses + 1 := by
  rw [get]
  split
  · exact (Nat.add_assoc ..).symm
  · exact Nat.add_right_comm ..

theorem getOrCompute_of_some {c : LruCache κ υ} {key : κ} {value : υ}
    (h : (c.get key).1 = some value) (compute : Unit → Option υ) :
    c.getOrCompute key compute = (some value, false, (c.get key).2) := by
  cases hget : c.get key with
  | mk found d =>
    rw [hget] at h
    obtain rfl : found = some value := h
    rw [getOrCompute, hget]

theorem getOrCompute_of_none {c : LruCache κ υ} {key : κ} (h : (c.get key).1 = none)
    (compute : Unit → Option υ) :
    c.getOrCompute key compute = (compute (), true, (c.get key).2.put key (compute ())) := by
  cases hget : c.get key with
  | mk found d =>
    rw [hget] at h
    obtain rfl : found = none := h
    rw [getOrCompute, hget]

theorem capacity_after (c : LruCache κ υ) (use : CacheUse κ υ) :
    (c.after use).capacity = c.capacity := by
  cases use with
  | get key => exact capacity_get c key
  | contains key => rfl
  | put key value => rfl
  | getOrCompute key compute =>
    rw [after]
    cases h : (c.get key).1 with
    | none => rw [getOrCompute_of_none h, capacity_put, capacity_get]
    | some value => rw [getOrCompute_of_some h, capacity_get]
  | clear => rfl

private theorem lookups_after (c : LruCache κ υ) (use : CacheUse κ υ) :
    (c.after use).hits + (c.after use).misses =
      c.hits + c.misses + if use.looksUp then 1 else 0 := by
  cases use with
  | get key => exact lookups_get c key
  | contains key => rfl
  | put key value => rfl
  | getOrCompute key compute =>
    rw [after]
    cases h : (c.get key).1 with
    | none =>
      rw [getOrCompute_of_none h]
      exact lookups_get c key
    | some value =>
      rw [getOrCompute_of_some h]
      exact lookups_get c key
  | clear => rfl

variable [LawfulBEq κ] {c : LruCache κ υ} {past : CachePast κ υ}

namespace Recalls

theorem contains_latest (h : c.Recalls past) (key : κ) :
    (past.latest c.capacity).contains key = c.contains key := by
  rw [← h.keys, Bool.eq_iff_iff, List.contains_iff_mem, List.mem_map, contains, List.any_eq_true]
  simp only [beq_iff_eq]

private theorem get_eq (h : c.Recalls past) (key : κ) :
    (c.get key).1 = past.value? c.capacity key := by
  rw [get, CachePast.value?, h.contains_latest, contains]
  split
  · rename_i hfind
    rw [List.any_eq_false.mpr (List.find?_eq_none.mp hfind)]
    rfl
  · rename_i entry hfind
    have hmem := List.mem_of_find?_eq_some hfind
    obtain rfl : entry.1 = key := by simpa using List.find?_some hfind
    have hany : (c.entries.any fun e ↦ e.1 == entry.1) = true :=
      List.any_eq_true.mpr ⟨entry, hmem, beq_self_eq_true _⟩
    rw [hany, h.values entry hmem]
    rfl

omit [LawfulBEq κ] in
theorem size_le (h : c.Recalls past) : c.size ≤ c.capacity := by
  rw [size, ← List.length_map, h.keys, CachePast.latest, List.length_take]
  exact Nat.min_le_left ..

/-- **Storing a value** forgets no key but the one that was not touched for the longest time. -/
theorem put (h : c.Recalls past) {after : CachePast κ υ} {key : κ} {value : Option υ}
    (htouched : after.touched = key :: past.touched)
    (hstored : ∀ k, after.lastStored? k = if key == k then some value else past.lastStored? k) :
    (c.put key value).Recalls after := by
  obtain ⟨n, hn⟩ := Nat.exists_eq_succ_of_ne_zero (Nat.ne_of_gt c.capacity_pos)
  constructor
  · have hnodup : ((firstOccurrences (fun k ↦ k) [] past.touched).map fun k ↦ k).Nodup :=
      nodup_keys_firstOccurrences
    rw [List.map_id'] at hnodup
    have hkeys := h.keys
    rw [CachePast.latest, hn] at hkeys
    rw [capacity_put, CachePast.latest, htouched, firstOccurrences_cons_eq, entries_put, hn,
      List.map_take, List.map_cons, List.take_succ_cons, List.take_succ_cons,
      ← take_filter_take hnodup, ← hkeys, List.filter_map]
    rfl
  · intro entry hentry
    rw [hstored]
    rcases List.mem_cons.mp (List.mem_of_mem_take hentry) with rfl | hmem
    · rw [if_pos (beq_self_eq_true _)]
    · obtain ⟨hmem, hother⟩ := List.mem_filter.mp hmem
      have hne : ¬(key == entry.1) = true := fun heq ↦ by
        rw [beq_iff_eq.mp heq, beq_self_eq_true] at hother
        cases hother
      rw [if_neg hne, h.values entry hmem]

theorem store (h : c.Recalls past) (key : κ) (value : Option υ) :
    (c.put key value).Recalls (past.store key value) :=
  h.put rfl (past.lastStored?_store key value)

private theorem touch (h : c.Recalls past) {entry : κ × Option υ} (hentry : entry ∈ c.entries) :
    (c.put entry.1 entry.2).Recalls (past.touch entry.1) := by
  refine h.put rfl fun k ↦ ?_
  split
  · rename_i hk
    obtain rfl := beq_iff_eq.mp hk
    exact h.values entry hentry
  · rfl

omit [LawfulBEq κ] in
theorem of_entries_eq {d : LruCache κ υ} (h : c.Recalls past) (hcapacity : d.capacity = c.capacity)
    (hentries : d.entries = c.entries) : d.Recalls past :=
  ⟨by rw [hentries, hcapacity, h.keys], by rw [hentries]; exact h.values⟩

/-- **Looking a key up** touches it if it is kept. -/
theorem get (h : c.Recalls past) (key : κ) :
    (c.get key).2.Recalls (past.after c.capacity (.get key)) := by
  rw [CachePast.after, h.contains_latest, contains, LruCache.get]
  split
  · rename_i hfind
    rw [List.any_eq_false.mpr (List.find?_eq_none.mp hfind), if_neg Bool.false_ne_true]
    exact h.of_entries_eq rfl rfl
  · rename_i entry hfind
    have hmem := List.mem_of_find?_eq_some hfind
    obtain rfl : entry.1 = key := by simpa using List.find?_some hfind
    have hany : (c.entries.any fun e ↦ e.1 == entry.1) = true :=
      List.any_eq_true.mpr ⟨entry, hmem, beq_self_eq_true _⟩
    rw [if_pos hany]
    refine (h.touch hmem).of_entries_eq rfl ?_
    -- the entry leaves its place before it comes to the front, so nothing is forgotten
    have hlt : (c.entries.filter (!·.1 == entry.1)).length < c.size :=
      List.length_filter_lt_length_iff_exists.mpr ⟨entry, hmem, by simp⟩
    rw [entries_put, List.take_of_length_le]
    exact Nat.lt_of_lt_of_le hlt h.size_le

theorem getOrCompute (h : c.Recalls past) (key : κ) (compute : Unit → Option υ) :
    (c.getOrCompute key compute).2.2.Recalls
      (past.after c.capacity (.getOrCompute key compute)) := by
  have hget := h.get_eq key
  rw [CachePast.after, ← hget]
  cases hfound : (c.get key).1 with
  | none =>
    rw [getOrCompute_of_none hfound]
    exact (h.store key (compute ())).of_entries_eq (capacity_get c key) (entries_put_get c key _)
  | some value =>
    rw [getOrCompute_of_some hfound]
    have htouch := h.get key
    rw [hfound, CachePast.value?] at hget
    rw [CachePast.after] at htouch
    split at hget
    · rename_i hkept
      rwa [if_pos hkept] at htouch
    · cases hget

/-- **One use** of a cache keeps it true to its past. -/
theorem after (h : c.Recalls past) (use : CacheUse κ υ) :
    (c.after use).Recalls (past.after c.capacity use) := by
  cases use with
  | get key => exact h.get key
  | contains key => exact h
  | put key value => exact h.store key value
  | getOrCompute key compute => exact h.getOrCompute key compute
  | clear => exact ⟨List.take_nil.symm, nofun⟩

end Recalls

/-! ## Many uses -/

private theorem recalls_afterAll (h : c.Recalls past) (uses : List (CacheUse κ υ)) :
    (c.afterAll uses).Recalls (uses.foldl (CachePast.after c.capacity) past) := by
  induction uses generalizing c past with
  | nil => exact h
  | cons use rest ih =>
    have hrest := ih (h.after use)
    rwa [capacity_after] at hrest

omit [LawfulBEq κ] in
private theorem lookups_afterAll (c : LruCache κ υ) (uses : List (CacheUse κ υ)) :
    (c.afterAll uses).hits + (c.afterAll uses).misses =
      c.hits + c.misses + uses.countP CacheUse.looksUp := by
  induction uses generalizing c with
  | nil => rfl
  | cons use rest ih =>
    have hrest := ih (c.after use)
    rw [lookups_after] at hrest
    rw [List.countP_cons, Nat.add_comm (rest.countP _), ← Nat.add_assoc]
    exact hrest

omit [LawfulBEq κ] in
private theorem capacity_afterAll (c : LruCache κ υ) (uses : List (CacheUse κ υ)) :
    (c.afterAll uses).capacity = c.capacity := by
  induction uses generalizing c with
  | nil => rfl
  | cons use rest ih => exact (ih (c.after use)).trans (capacity_after c use)

/-! ## Values that are computed -/

/-- Every key is kept with what `f` gives for it. -/
def ComputedBy (c : LruCache κ υ) (f : κ → Option υ) : Prop :=
  ∀ entry ∈ c.entries, entry.2 = f entry.1

theorem ComputedBy.getOrCompute {f : κ → Option υ} (h : c.ComputedBy f) {key : κ}
    {compute : Unit → Option υ} (hcompute : compute () = f key) :
    (c.getOrCompute key compute).1 = f key ∧ (c.getOrCompute key compute).2.2.ComputedBy f := by
  have hget : (c.get key).2.ComputedBy f := fun entry hentry ↦ h entry (mem_of_mem_get hentry)
  cases hfound : (c.get key).1 with
  | none =>
    rw [getOrCompute_of_none hfound]
    refine ⟨hcompute, fun entry hentry ↦ ?_⟩
    rcases mem_of_mem_put hentry with rfl | hentry
    · exact hcompute
    · exact hget entry hentry
  | some value =>
    rw [getOrCompute_of_some hfound]
    exact ⟨h _ (mem_of_get hfound), hget⟩

theorem ComputedBy.after {f : κ → Option υ} (h : c.ComputedBy f) {use : CacheUse κ υ}
    (huse : use.Yields f) : (c.after use).ComputedBy f := by
  cases use with
  | get key => exact fun entry hentry ↦ h entry (mem_of_mem_get hentry)
  | contains key => exact h
  | put key value => exact huse.elim
  | getOrCompute key compute => exact (h.getOrCompute huse).2
  | clear => exact nofun

theorem ComputedBy.afterAll {f : κ → Option υ} (h : c.ComputedBy f) {uses : List (CacheUse κ υ)}
    (huses : ∀ use ∈ uses, use.Yields f) : (c.afterAll uses).ComputedBy f := by
  induction uses generalizing c with
  | nil => exact h
  | cons use rest ih =>
    obtain ⟨huse, hrest⟩ := List.forall_mem_cons.mp huses
    exact ih (h.after huse) hrest

/-! ## Least recently used -/

/-- **A cache keeps exactly what was used latest.** After any uses of an empty cache it keeps the
keys that were touched latest since it was cleared, as many as there is room for, each with the
value that was stored last for it, and its counts are of all lookups. Where every value is computed
by one function of its key, every lookup gives what the function gives, whatever was forgotten. -/
theorem keys_afterAll_eq_latest {capacity : Int} (h : 1 ≤ capacity) :
    ∃ start : LruCache κ υ, create capacity = .ok start ∧ ∀ uses : List (CacheUse κ υ),
      let c := start.afterAll uses
      let past := CachePast.ofUses capacity.toNat uses
      c.entries.map Prod.fst = past.latest capacity.toNat ∧
        (∀ entry ∈ c.entries, past.lastStored? entry.1 = some entry.2) ∧
        (c.size : Int) ≤ capacity ∧
        c.hits + c.misses = uses.countP CacheUse.looksUp ∧
        ∀ f : κ → Option υ, (∀ use ∈ uses, use.Yields f) →
          ∀ key, (c.getOrCompute key fun _ ↦ f key).1 = f key := by
  have hcapacity : 0 < capacity.toNat := by omega
  have hempty : (empty capacity.toNat hcapacity : LruCache κ υ).Recalls {} :=
    ⟨List.take_nil.symm, List.forall_mem_nil _⟩
  refine ⟨empty capacity.toNat hcapacity, dif_pos h, fun uses ↦ ?_⟩
  have hrecalls := recalls_afterAll hempty uses
  have hsame := capacity_afterAll (empty capacity.toNat hcapacity : LruCache κ υ) uses
  have hsize := hrecalls.size_le
  have hkeys := hrecalls.keys
  rw [hsame] at hsize hkeys
  refine ⟨hkeys, hrecalls.values, ?_, ?_, fun f huses key ↦ ?_⟩
  · have hle := Int.ofNat_le.mpr hsize
    rwa [empty, Int.toNat_of_nonneg (Int.le_trans (by decide) h)] at hle
  · exact (lookups_afterAll _ uses).trans (Nat.zero_add _)
  · have hcomputed : (empty capacity.toNat hcapacity : LruCache κ υ).ComputedBy f :=
      List.forall_mem_nil _
    exact ((hcomputed.afterAll huses).getOrCompute rfl).1

/-- Three keys in a cache for two, one of which has no value. -/
def threeKeys : List (CacheUse Nat Nat) :=
  [.getOrCompute 1 fun _ ↦ some 10, .getOrCompute 2 fun _ ↦ none, .get 1, .contains 2,
    .getOrCompute 3 fun _ ↦ some 30, .get 2]

/-- For instance the second of three keys is forgotten by a cache for two, since the first one was
looked up again; it has no value then as before. -/
theorem keys_afterAll_eq_latest_three :
    (1 : Int) ≤ 2 ∧ ∃ start : LruCache Nat Nat, create 2 = .ok start ∧
      (start.afterAll threeKeys).entries.map Prod.fst = [3, 1] ∧
      (start.afterAll threeKeys).hits + (start.afterAll threeKeys).misses = 5 ∧
      (∀ use ∈ threeKeys, use.Yields fun key ↦ if key = 2 then none else some (10 * key)) ∧
      ((start.afterAll threeKeys).getOrCompute 2 fun _ ↦ none).1 = none := by
  obtain ⟨start, hstart, hspec⟩ := keys_afterAll_eq_latest (κ := Nat) (υ := Nat)
    (show (1 : Int) ≤ 2 by decide)
  obtain ⟨hkeys, -, -, hlookups, hvalues⟩ := hspec threeKeys
  have hyields : ∀ use ∈ threeKeys,
      use.Yields fun key ↦ if key = 2 then none else some (10 * key) := by
    simp [threeKeys, CacheUse.Yields]
  exact ⟨by decide, start, hstart, hkeys, hlookups, hyields, hvalues _ hyields 2⟩

end LruCache

end SceneSearch
