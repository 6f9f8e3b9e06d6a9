import Mathlib.Data.List.Forall2

/-!
# Lists whose items may fail

Pieces of a query, words of a piece, entries of an export and scopes of a search are gone through
with a check that may fail. Either all items have results, which then are those of the whole list,
or the first item that fails decides; this is `mapM_eq_error_iff`.
-/

namespace SceneSearch

variable {ε α β γ : Type} {f : α → Except ε β} {items : List α} {results : List β}

/-! ## One result -/

theorem exists_of_isOk {r : Except ε α} (h : r.isOk = true) : ∃ a, r = .ok a := by
  cases r with
  | error fault => cases h
  | ok a => exact ⟨a, rfl⟩

theorem exists_of_any {r : Except ε α} {p : α → Bool} (h : r.toOption.any p = true) :
    ∃ a, r = .ok a ∧ p a = true := by
  cases r with
  | error fault => cases h
  | ok a => exact ⟨a, rfl, h⟩

/-! ## Results of all items -/

theorem exists_of_mapM_append {front back : List α} (h : (front ++ back).mapM f = .ok results) :
    ∃ first second, front.mapM f = .ok first ∧ back.mapM f = .ok second ∧
      results = first ++ second := by
  rw [List.mapM_append] at h
  rcases hfront : front.mapM f with cause | first
  · rw [hfront] at h
    cases h
  · rcases hback : back.mapM f with cause | second
    · rw [hfront, hback] at h
      cases h
    · rw [hfront, hback] at h
      exact ⟨first, second, rfl, rfl, (Except.ok.inj h).symm⟩

theorem exists_of_mapM_singleton {a : α} (h : [a].mapM f = .ok results) :
    ∃ b, f a = .ok b ∧ results = [b] := by
  rw [List.mapM_cons] at h
  rcases hb : f a with cause | b
  · rw [hb] at h
    cases h
  · rw [hb] at h
    exact ⟨b, rfl, (Except.ok.inj h).symm⟩

theorem mapM_eq_ok_iff :
    items.mapM f = .ok results ↔ List.Forall₂ (fun a b ↦ f a = .ok b) items results := by
  induction items generalizing results with
  | nil =>
    rw [List.forall₂_nil_left_iff]
    exact ⟨fun h ↦ (Except.ok.inj h).symm, fun h ↦ h ▸ rfl⟩
  | cons a rest ih =>
    rw [List.forall₂_cons_left_iff]
    constructor
    · intro h
      rw [← List.singleton_append] at h
      obtain ⟨_, more, ha, hrest, rfl⟩ := exists_of_mapM_append h
      obtain ⟨b, hb, rfl⟩ := exists_of_mapM_singleton ha
      exact ⟨b, more, hb, ih.mp hrest, rfl⟩
    · rintro ⟨b, more, hb, hrest, rfl⟩
      rw [List.mapM_cons, hb, ih.mpr hrest]
      rfl

theorem mem_of_mapM (h : items.mapM f = .ok results) (b : β) :
    b ∈ results ↔ ∃ a ∈ items, f a = .ok b := by
  induction items generalizing results with
  | nil =>
    obtain rfl := Except.ok.inj h
    simp
  | cons a rest ih =>
    rw [← List.singleton_append] at h
    obtain ⟨first, more, hfirst, hmore, rfl⟩ := exists_of_mapM_append h
    obtain ⟨d, hd, rfl⟩ := exists_of_mapM_singleton hfirst
    simp only [List.singleton_append, List.mem_cons, ih hmore, exists_eq_or_imp, hd,
      Except.ok.injEq, @eq_comm _ b d]

theorem exists_forall₂_of_mapM {g : γ → β} {S : α → γ → Prop} (h : items.mapM f = .ok results)
    (hS : ∀ a ∈ items, ∀ b, f a = .ok b → ∃ c, S a c ∧ g c = b) :
    ∃ cs, List.Forall₂ S items cs ∧ cs.map g = results := by
  induction items generalizing results with
  | nil =>
    obtain rfl := Except.ok.inj h
    exact ⟨[], .nil, rfl⟩
  | cons a rest ih =>
    rw [← List.singleton_append] at h
    obtain ⟨_, more, ha, hrest, rfl⟩ := exists_of_mapM_append h
    obtain ⟨b, hb, rfl⟩ := exists_of_mapM_singleton ha
    obtain ⟨c, hc, rfl⟩ := hS a List.mem_cons_self b hb
    obtain ⟨cs, hcs, rfl⟩ := ih hrest fun d hd ↦ hS d (List.mem_cons_of_mem a hd)
    exact ⟨c :: cs, .cons hc hcs, rfl⟩

theorem mapM_congr {g : α → Except ε β} (h : ∀ a ∈ items, f a = g a) :
    items.mapM f = items.mapM g := by
  induction items with
  | nil => rfl
  | cons a rest ih =>
    rw [List.mapM_cons, List.mapM_cons, h a List.mem_cons_self,
      ih fun b hb ↦ h b (List.mem_cons_of_mem a hb)]

/-! ## The first failure -/

theorem mapM_eq_error_iff {e : ε} :
    items.mapM f = .error e ↔ ∃ before a after, items = before ++ a :: after ∧
      (∀ b ∈ before, ∃ y, f b = .ok y) ∧ f a = .error e := by
  induction items with
  | nil => simp [pure, Except.pure]
  | cons a rest ih =>
    rw [List.mapM_cons]
    cases ha : f a with
    | error cause =>
      constructor
      · intro h
        exact ⟨[], a, rest, rfl, nofun, ha.trans (congrArg Except.error (Except.error.inj h))⟩
      · rintro ⟨before, b, after, heq, hbefore, hb⟩
        rcases before with _ | ⟨c, before⟩
        · obtain ⟨rfl, -⟩ := List.cons.inj heq
          exact congrArg Except.error (Except.error.inj (ha.symm.trans hb))
        · obtain ⟨rfl, -⟩ := List.cons.inj heq
          obtain ⟨y, hy⟩ := hbefore a List.mem_cons_self
          rw [ha] at hy
          cases hy
    | ok y =>
      have hrest : (do let ys ← rest.mapM f; pure (y :: ys) : Except ε (List β)) = .error e ↔
          rest.mapM f = .error e := by
        cases rest.mapM f <;> simp [bind, Except.bind, pure, Except.pure]
      refine hrest.trans (ih.trans ?_)
      constructor
      · rintro ⟨before, b, after, rfl, hbefore, hb⟩
        exact ⟨a :: before, b, after, rfl, List.forall_mem_cons.mpr ⟨⟨y, ha⟩, hbefore⟩, hb⟩
      · rintro ⟨before, b, after, heq, hbefore, hb⟩
        rcases before with _ | ⟨c, before⟩
        · obtain ⟨rfl, -⟩ := List.cons.inj heq
          rw [ha] at hb
          cases hb
        · obtain ⟨rfl, rfl⟩ := List.cons.inj heq
          exact ⟨before, b, after, rfl, (List.forall_mem_cons.mp hbefore).2, hb⟩

end SceneSearch
