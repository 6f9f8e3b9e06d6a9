import Mathlib.Data.List.Basic
import SceneSearch.Search.Scopes

/-!
# First occurrences

Matches that several scopes have in common are kept once, where they are met first. What is kept is
told by keys: every key that occurs is kept, once, and in front of a kept item every key that
occurred before is kept as well. So items may be left out whose keys occur before them, and a list
in which no key is repeated stays as it is.
-/

namespace SceneSearch

section

variable {α β : Type} [BEq β] {key : α → β} {seen : List β} {items : List α} {a : α}

theorem firstOccurrences_sublist (seen : List β) (items : List α) :
    (firstOccurrences key seen items).Sublist items := by
  induction items generalizing seen with
  | nil => exact .refl []
  | cons a rest ih =>
    rw [firstOccurrences]
    split
    · exact (ih seen).cons a
    · exact (ih (key a :: seen)).cons_cons a

theorem mem_of_firstOccurrences (h : a ∈ firstOccurrences key seen items) : a ∈ items :=
  (firstOccurrences_sublist seen items).subset h

theorem map_firstOccurrences {γ : Type} (f : γ → α) (seen : List β) (items : List γ) :
    (firstOccurrences (fun c ↦ key (f c)) seen items).map f =
      firstOccurrences key seen (items.map f) := by
  induction items generalizing seen with
  | nil => rfl
  | cons c rest ih =>
    rw [firstOccurrences, List.map_cons, firstOccurrences]
    split
    · exact ih seen
    · rw [List.map_cons, ih]

end

section

variable {α β : Type} [BEq β] [LawfulBEq β] {key : α → β} {seen : List β} {items : List α}

theorem mem_keys_firstOccurrences {k : β} :
    k ∈ (firstOccurrences key seen items).map key ↔ k ∈ items.map key ∧ k ∉ seen := by
  induction items generalizing seen with
  | nil => simp [firstOccurrences]
  | cons a rest ih =>
    rw [firstOccurrences]
    split
    · rename_i hseen
      rw [List.contains_iff_mem] at hseen
      -- the key is not new, so nothing is lost with the item
      rw [ih, List.map_cons, List.mem_cons]
      refine and_congr_left fun hk ↦ ⟨Or.inr, fun h ↦ h.resolve_left ?_⟩
      rintro rfl
      exact hk hseen
    · rename_i hnew
      rw [List.contains_iff_mem] at hnew
      rw [List.map_cons, List.mem_cons, ih, List.map_cons, List.mem_cons, List.mem_cons, not_or]
      by_cases hk : k = key a
      · simp [hk, hnew]
      · simp [hk]

theorem nodup_keys_firstOccurrences : ((firstOccurrences key seen items).map key).Nodup := by
  induction items generalizing seen with
  | nil => exact List.nodup_nil
  | cons a rest ih =>
    rw [firstOccurrences]
    split
    · exact ih
    · rw [List.map_cons, List.nodup_cons]
      refine ⟨fun h ↦ ?_, ih⟩
      exact (mem_keys_firstOccurrences.mp h).2 List.mem_cons_self

theorem firstOccurrences_congr {other : List β}
    (h : ∀ a ∈ items, key a ∈ seen ↔ key a ∈ other) :
    firstOccurrences key seen items = firstOccurrences key other items := by
  induction items generalizing seen other with
  | nil => rfl
  | cons a rest ih =>
    have hrest : ∀ b ∈ rest, key b ∈ seen ↔ key b ∈ other := fun b hb ↦
      h b (List.mem_cons_of_mem a hb)
    have hcontains : seen.contains (key a) = other.contains (key a) := by
      rw [Bool.eq_iff_iff, List.contains_iff_mem, List.contains_iff_mem, h a List.mem_cons_self]
    have hcons : ∀ b ∈ rest, key b ∈ key a :: seen ↔ key b ∈ key a :: other := fun b hb ↦ by
      rw [List.mem_cons, List.mem_cons, hrest b hb]
    rw [firstOccurrences, firstOccurrences, hcontains, ih hrest, ih hcons]

theorem firstOccurrences_append (front back : List α) :
    firstOccurrences key seen (front ++ back) =
      firstOccurrences key seen front ++ firstOccurrences key (front.map key ++ seen) back := by
  induction front generalizing seen with
  | nil => rfl
  | cons a rest ih =>
    rw [List.cons_append, firstOccurrences, firstOccurrences]
    split
    · rename_i hseen
      rw [List.contains_iff_mem] at hseen
      rw [ih]
      refine congrArg _ (firstOccurrences_congr fun b _ ↦ ?_)
      simp only [List.map_cons, List.mem_append, List.mem_cons]
      by_cases hk : key b = key a
      · simp [hk, hseen]
      · simp [hk]
    · rw [ih, List.cons_append]
      refine congrArg _ (congrArg _ (firstOccurrences_congr fun b _ ↦ ?_))
      simp only [List.map_cons, List.mem_append, List.mem_cons]
      tauto

/-- Items that have no key in common with others are kept as if they were alone. -/
theorem firstOccurrences_append_of_disjoint {front back : List α}
    (h : ∀ a ∈ front, ∀ b ∈ back, key a ≠ key b) :
    firstOccurrences key seen (front ++ back) =
      firstOccurrences key seen front ++ firstOccurrences key seen back := by
  rw [firstOccurrences_append]
  refine congrArg _ (firstOccurrences_congr fun b hb ↦ ?_)
  rw [List.mem_append, or_iff_right_iff_imp]
  intro hmem
  obtain ⟨a, ha, hkey⟩ := List.mem_map.mp hmem
  exact absurd hkey (h a ha b hb)

theorem firstOccurrences_eq_nil (h : ∀ a ∈ items, key a ∈ seen) :
    firstOccurrences key seen items = [] := by
  induction items with
  | nil => rfl
  | cons a rest ih =>
    have hseen : seen.contains (key a) = true := List.contains_iff_mem.mpr (h a List.mem_cons_self)
    rw [firstOccurrences, if_pos hseen]
    exact ih fun b hb ↦ h b (List.mem_cons_of_mem a hb)

theorem firstOccurrences_eq_self (hnodup : (items.map key).Nodup)
    (hnew : ∀ a ∈ items, key a ∉ seen) : firstOccurrences key seen items = items := by
  induction items generalizing seen with
  | nil => rfl
  | cons a rest ih =>
    obtain ⟨ha, hrest⟩ := List.nodup_cons.mp hnodup
    have hseen : ¬seen.contains (key a) = true := by
      rw [List.contains_iff_mem]
      exact hnew a List.mem_cons_self
    rw [firstOccurrences, if_neg hseen, ih hrest]
    intro b hb hmem
    rcases List.mem_cons.mp hmem with heq | hmem
    · exact ha (heq ▸ List.mem_map_of_mem hb)
    · exact hnew b (List.mem_cons_of_mem a hb) hmem

theorem firstOccurrences_filter {keep : α → Bool}
    (h : ∀ a ∈ items, ∀ b ∈ items, key a = key b → keep a = keep b) {other : List β}
    (hseen : ∀ a ∈ items, keep a = true → (key a ∈ seen ↔ key a ∈ other)) :
    firstOccurrences key other (items.filter keep) =
      (firstOccurrences key seen items).filter keep := by
  induction items generalizing seen other with
  | nil => rfl
  | cons a rest ih =>
    have hrest : ∀ b ∈ rest, ∀ c ∈ rest, key b = key c → keep b = keep c := fun b hb c hc ↦
      h b (List.mem_cons_of_mem a hb) c (List.mem_cons_of_mem a hc)
    by_cases hkeep : keep a = true
    · have ha := hseen a List.mem_cons_self hkeep
      rw [List.filter_cons_of_pos hkeep, firstOccurrences, firstOccurrences]
      by_cases hmem : key a ∈ other
      · rw [if_pos (List.contains_iff_mem.mpr hmem),
          if_pos (List.contains_iff_mem.mpr (ha.mpr hmem))]
        exact ih hrest fun b hb ↦ hseen b (List.mem_cons_of_mem a hb)
      · rw [if_neg (by rwa [List.contains_iff_mem]),
          if_neg (by rwa [List.contains_iff_mem, ha]), List.filter_cons_of_pos hkeep]
        refine congrArg _ (ih hrest fun b hb hb' ↦ ?_)
        rw [List.mem_cons, List.mem_cons, hseen b (List.mem_cons_of_mem a hb) hb']
    · -- an item that is left out has another key than those that are not
      rw [List.filter_cons_of_neg hkeep, firstOccurrences]
      have hother : ∀ b ∈ rest, keep b = true → key b ≠ key a := by
        intro b hb hb' hkey
        rw [h b (List.mem_cons_of_mem a hb) a List.mem_cons_self hkey] at hb'
        exact hkeep hb'
      split
      · exact ih hrest fun b hb ↦ hseen b (List.mem_cons_of_mem a hb)
      · rw [List.filter_cons_of_neg hkeep]
        refine ih hrest fun b hb hb' ↦ ?_
        rw [List.mem_cons, or_iff_right (hother b hb hb')]
        exact hseen b (List.mem_cons_of_mem a hb) hb'

/-- Where an item is kept, every key in front of it was seen or is kept in front of it. -/
theorem exists_of_firstOccurrences_eq_append {before after : List α} {a : α}
    (h : firstOccurrences key seen items = before ++ a :: after) :
    ∃ front back, items = front ++ a :: back ∧
      ∀ b ∈ front, key b ∈ seen ∨ key b ∈ before.map key := by
  induction items generalizing seen before with
  | nil => simp [firstOccurrences] at h
  | cons c rest ih =>
    rw [firstOccurrences] at h
    split at h
    · rename_i hseen
      rw [List.contains_iff_mem] at hseen
      obtain ⟨front, back, rfl, hfront⟩ := ih h
      refine ⟨c :: front, back, rfl, fun b hb ↦ ?_⟩
      rcases List.mem_cons.mp hb with rfl | hb
      · exact Or.inl hseen
      · exact hfront b hb
    · rcases before with _ | ⟨d, before⟩
      · obtain ⟨rfl, -⟩ := List.cons.inj h
        exact ⟨[], rest, rfl, nofun⟩
      · obtain ⟨rfl, hrest⟩ := List.cons.inj h
        obtain ⟨front, back, rfl, hfront⟩ := ih hrest
        refine ⟨c :: front, back, rfl, fun b hb ↦ ?_⟩
        rw [List.map_cons, List.mem_cons]
        rcases List.mem_cons.mp hb with rfl | hb
        · exact Or.inr (Or.inl rfl)
        · rcases hfront b hb with hmem | hmem
          · exact (List.mem_cons.mp hmem).elim (fun heq ↦ Or.inr (Or.inl heq)) Or.inl
          · exact Or.inr (Or.inr hmem)

/-- **Blocks may be left out** whose keys were seen or occur in the blocks in front of them that are
not left out. -/
theorem firstOccurrences_flatMap_filter {γ : Type} {block : γ → List α} {keep : γ → Bool}
    {blocks : List γ}
    (h : ∀ front c back, blocks = front ++ c :: back → keep c = false →
      ∀ a ∈ block c, key a ∈ seen ∨ key a ∈ ((front.filter keep).flatMap block).map key) :
    firstOccurrences key seen ((blocks.filter keep).flatMap block) =
      firstOccurrences key seen (blocks.flatMap block) := by
  induction blocks generalizing seen with
  | nil => rfl
  | cons c rest ih =>
    rw [List.flatMap_cons, firstOccurrences_append]
    by_cases hkeep : keep c = true
    · rw [List.filter_cons_of_pos hkeep, List.flatMap_cons, firstOccurrences_append]
      refine congrArg _ (ih fun front d back hrest hd a ha ↦ ?_)
      have hmem := h (c :: front) d back (by rw [hrest, List.cons_append]) hd a ha
      rw [List.filter_cons_of_pos hkeep, List.flatMap_cons, List.map_append,
        List.mem_append] at hmem
      rw [List.mem_append]
      tauto
    · have hc : keep c = false := by simpa using hkeep
      -- the keys of the block were seen, so it adds neither items nor keys
      have hseen : ∀ a ∈ block c, key a ∈ seen := fun a ha ↦ by
        simpa using h [] c rest rfl hc a ha
      rw [List.filter_cons_of_neg hkeep, firstOccurrences_eq_nil hseen, List.nil_append]
      have hkeys : ∀ k, k ∈ (block c).map key ++ seen ↔ k ∈ seen := by
        intro k
        rw [List.mem_append, or_iff_right_iff_imp]
        intro hk
        obtain ⟨a, ha, rfl⟩ := List.mem_map.mp hk
        exact hseen a ha
      rw [firstOccurrences_congr fun a _ ↦ hkeys (key a)]
      refine ih fun front d back hrest hd a ha ↦ ?_
      have hmem := h (c :: front) d back (by rw [hrest, List.cons_append]) hd a ha
      rwa [List.filter_cons_of_neg hkeep] at hmem

end

end SceneSearch
