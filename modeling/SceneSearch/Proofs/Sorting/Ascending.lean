import Mathlib.Data.List.Chain
import SceneSearch.Sorting.Run

/-!
# Ascending runs

A comparison need not be an order: unknown numbers can make it go round in circles. So order is
asked for only among the items that are sorted, those that satisfy some `P`, and `Ascending` says of
a list that its items do and that none of them is below one before it.

Counting by halving is right for a condition that holds up to a point of a list. In an ascending
list, "is not above this item" is such a condition; therefore what is inserted by halving, or passed
at a gallop, is put in its place.
-/

namespace SceneSearch

namespace Sorting

variable {α : Type}

/-! ## Orders of some items -/

/-- `lt` is an order of the items that satisfy `P`, up to items of equal rank. -/
structure Orders (lt : α → α → Bool) (P : α → Prop) : Prop where
  /-- No two items are below each other. -/
  asymm : ∀ {a b}, P a → P b → lt a b = true → lt b a = false
  /-- What is not below an item is not below anything that is not above it. -/
  trans : ∀ {a b c}, P a → P b → P c → lt b a = false → lt c b = false → lt c a = false

/-- The items of a list satisfy `P`, and none is below one before it. -/
structure Ascending (lt : α → α → Bool) (P : α → Prop) (items : List α) : Prop where
  /-- The items satisfy `P`. -/
  fit : ∀ a ∈ items, P a
  /-- No item is below one before it. -/
  pairwise : items.Pairwise fun a b ↦ lt b a = false

variable {lt : α → α → Bool} {P : α → Prop} {a : α} {items before after : List α}

theorem Orders.flip (ho : Orders lt P) : Orders (fun a b ↦ lt b a) P where
  asymm := fun ha hb h ↦ ho.asymm hb ha h
  trans := fun ha hb hc hab hbc ↦ ho.trans hc hb ha hbc hab

theorem orders_of_key {κ : Type} [Ord κ] [Std.TransOrd κ] (key : α → κ)
    (h : ∀ {a b}, P a → P b → lt a b = (compare (key a) (key b) == .lt)) : Orders lt P where
  asymm := by
    intro a b ha hb hab
    rw [h ha hb, beq_iff_eq] at hab
    rw [h hb ha, beq_eq_false_iff_ne]
    exact Std.OrientedCmp.not_lt_of_lt hab
  trans := by
    intro a b c ha hb hc hab hbc
    rw [h hb ha, beq_eq_false_iff_ne] at hab
    rw [h hc hb, beq_eq_false_iff_ne] at hbc
    rw [h hc ha, beq_eq_false_iff_ne]
    have hle {a b : α} (hne : compare (key b) (key a) ≠ .lt) : (compare (key a) (key b)).isLE := by
      by_contra hnot
      exact hne (Std.OrientedCmp.lt_of_not_isLE hnot)
    exact Std.OrientedCmp.not_lt_of_isLE (Std.TransCmp.isLE_trans (hle hab) (hle hbc))

theorem ascending_nil : Ascending lt P [] := ⟨by simp, List.Pairwise.nil⟩

theorem ascending_append :
    Ascending lt P (before ++ after) ↔
      Ascending lt P before ∧ Ascending lt P after ∧
        ∀ a ∈ before, ∀ b ∈ after, lt b a = false := by
  constructor
  · intro h
    obtain ⟨hbefore, hafter, hacross⟩ := List.pairwise_append.mp h.pairwise
    exact ⟨⟨fun a ha ↦ h.fit a (List.mem_append_left _ ha), hbefore⟩,
      ⟨fun a ha ↦ h.fit a (List.mem_append_right _ ha), hafter⟩, hacross⟩
  · rintro ⟨hbefore, hafter, hacross⟩
    refine ⟨fun a ha ↦ ?_, List.pairwise_append.mpr ⟨hbefore.pairwise, hafter.pairwise, hacross⟩⟩
    rcases List.mem_append.mp ha with ha | ha
    · exact hbefore.fit a ha
    · exact hafter.fit a ha

theorem ascending_cons :
    Ascending lt P (a :: items) ↔
      P a ∧ (∀ b ∈ items, lt b a = false) ∧ Ascending lt P items := by
  constructor
  · intro h
    obtain ⟨hbelow, hpairwise⟩ := List.pairwise_cons.mp h.pairwise
    exact ⟨h.fit a List.mem_cons_self, hbelow,
      ⟨fun b hb ↦ h.fit b (List.mem_cons_of_mem _ hb), hpairwise⟩⟩
  · rintro ⟨ha, hbelow, h⟩
    refine ⟨fun b hb ↦ ?_, List.pairwise_cons.mpr ⟨hbelow, h.pairwise⟩⟩
    rcases List.mem_cons.mp hb with rfl | hb
    · exact ha
    · exact h.fit b hb

namespace Ascending

theorem sublist {part : List α} (h : Ascending lt P items) (hpart : part.Sublist items) :
    Ascending lt P part :=
  ⟨fun a ha ↦ h.fit a (hpart.subset ha), h.pairwise.sublist hpart⟩

theorem take (h : Ascending lt P items) (n : Nat) : Ascending lt P (items.take n) :=
  h.sublist (List.take_sublist n items)

theorem drop (h : Ascending lt P items) (n : Nat) : Ascending lt P (items.drop n) :=
  h.sublist (List.drop_sublist n items)

theorem reverse (h : Ascending lt P items) : Ascending (fun a b ↦ lt b a) P items.reverse :=
  ⟨fun a ha ↦ h.fit a (List.mem_reverse.mp ha), List.pairwise_reverse.mpr h.pairwise⟩

theorem not_above_of_head (ho : Orders lt P) (h : Ascending lt P items) (ha : P a)
    (hhead : ∀ b ∈ items.head?, lt b a = false) : ∀ b ∈ items, lt b a = false := by
  match items with
  | [] => simp
  | first :: rest =>
    obtain ⟨hfirst, hbelow, hrest⟩ := ascending_cons.mp h
    have hle : lt first a = false := hhead first rfl
    intro b hb
    rcases List.mem_cons.mp hb with rfl | hb
    · exact hle
    · exact ho.trans ha hfirst (hrest.fit b hb) hle (hbelow b hb)

theorem not_below_of_last (ho : Orders lt P) (h : Ascending lt P items) (ha : P a)
    (hlast : ∀ b ∈ items.getLast?, lt a b = false) : ∀ b ∈ items, lt a b = false := by
  have hhead : ∀ b ∈ items.reverse.head?, lt a b = false := by
    rwa [List.head?_reverse]
  intro b hb
  exact not_above_of_head ho.flip h.reverse ha hhead b (List.mem_reverse.mpr hb)

end Ascending

/-! ## Conditions that hold up to a point -/

/-- A condition holds up to a point of a list and not from there on. -/
def HoldsUpToPoint (p : α → Bool) (items : List α) : Prop :=
  items.Pairwise fun a b ↦ p b = true → p a = true

/-- The first `count` items satisfy a condition and the others do not. -/
structure Cuts (p : α → Bool) (items : List α) (count : Nat) : Prop where
  /-- There are so many items. -/
  le : count ≤ items.length
  /-- The first items satisfy the condition. -/
  yes : ∀ a ∈ items.take count, p a = true
  /-- The others do not. -/
  no : ∀ a ∈ items.drop count, p a = false

variable {p : α → Bool} {count : Nat}

theorem Cuts.append_left (hbefore : ∀ a ∈ before, p a = true) (h : Cuts p after count) :
    Cuts p (before ++ after) (before.length + count) := by
  refine ⟨?_, fun a ha ↦ ?_, fun a ha ↦ ?_⟩
  · rw [List.length_append]
    exact Nat.add_le_add_left h.le _
  · rw [List.take_length_add_append] at ha
    rcases List.mem_append.mp ha with ha | ha
    · exact hbefore a ha
    · exact h.yes a ha
  · rw [List.drop_length_add_append] at ha
    exact h.no a ha

theorem Cuts.append_right (h : Cuts p before count) (hafter : ∀ a ∈ after, p a = false) :
    Cuts p (before ++ after) count := by
  refine ⟨?_, fun a ha ↦ ?_, fun a ha ↦ ?_⟩
  · rw [List.length_append]
    exact Nat.le_add_right_of_le h.le
  · rw [List.take_append_of_le_length h.le] at ha
    exact h.yes a ha
  · rw [List.drop_append_of_le_length h.le] at ha
    rcases List.mem_append.mp ha with ha | ha
    · exact h.no a ha
    · exact hafter a ha

theorem cuts_nil : Cuts p [] 0 := ⟨Nat.le_refl _, by simp, by simp⟩

namespace HoldsUpToPoint

theorem sublist {part : List α} (h : HoldsUpToPoint p items) (hpart : part.Sublist items) :
    HoldsUpToPoint p part := List.Pairwise.sublist hpart h

theorem take_of_pos (h : HoldsUpToPoint p items) {i : Nat} (hi : i < items.length)
    (hp : p items[i] = true) : ∀ a ∈ items.take (i + 1), p a = true := by
  intro a ha
  rw [List.take_add_one, List.getElem?_eq_getElem hi, Option.toList_some] at ha
  rw [HoldsUpToPoint, ← List.take_append_drop i items, List.drop_eq_getElem_cons hi] at h
  obtain ⟨-, -, hacross⟩ := List.pairwise_append.mp h
  rcases List.mem_append.mp ha with ha | ha
  · exact hacross a ha _ List.mem_cons_self hp
  · rw [List.mem_singleton.mp ha]
    exact hp

theorem drop_of_neg (h : HoldsUpToPoint p items) {i : Nat} (hi : i < items.length)
    (hp : ¬p items[i] = true) : ∀ a ∈ items.drop i, p a = false := by
  intro a ha
  have hdrop := h.sublist (List.drop_sublist i items)
  rw [HoldsUpToPoint, List.drop_eq_getElem_cons hi] at hdrop
  rw [List.drop_eq_getElem_cons hi] at ha
  rcases List.mem_cons.mp ha with rfl | ha
  · rwa [Bool.not_eq_true] at hp
  · by_contra hyes
    rw [Bool.not_eq_false] at hyes
    exact hp ((List.pairwise_cons.mp hdrop).1 a ha hyes)

theorem cuts_bisect (side : Side) (h : HoldsUpToPoint p items) :
    Cuts p items (bisect side p items) := by
  fun_induction bisect side p items with
  | case1 items pos half hlt hp ih =>
    have hcut := ih (h.sublist (List.drop_sublist _ items))
    have hcut := hcut.append_left (h.take_of_pos hlt hp)
    rwa [List.take_append_drop, List.length_take, Nat.min_eq_left hlt] at hcut
  | case2 items pos half hlt hp ih =>
    have hcut := ih (h.sublist (List.take_sublist _ items))
    have hcut := hcut.append_right (h.drop_of_neg hlt hp)
    rwa [List.take_append_drop] at hcut
  | case3 items empty =>
    obtain rfl : items = [] := List.eq_nil_of_length_eq_zero (by omega)
    exact cuts_nil

private theorem cuts_stride (side : Side) (h : HoldsUpToPoint p items) {known next : Nat}
    (hknown : ∀ a ∈ items.take known, p a = true) (hle : known ≤ items.length)
    (hnext : known ≤ next) : Cuts p items (stride side p items known next) := by
  fun_induction stride side p items known next with
  | case1 known next within hp ih =>
    exact ih (h.take_of_pos within hp) within (by omega)
  | case2 known next within hp =>
    -- the answer lies between the known items and the next one
    have hcut := (h.sublist ((List.drop_sublist known _).trans (List.take_sublist next items)))
    have hcut := (hcut.cuts_bisect side).append_right (h.drop_of_neg within hp)
    have hcut := hcut.append_left hknown
    have hwhole :
        items.take known ++ ((items.take next).drop known ++ items.drop next) = items := by
      rw [← List.append_assoc]
      nth_rewrite 1 [← Nat.min_eq_left hnext]
      rw [← List.take_take, List.take_append_drop, List.take_append_drop]
    rwa [hwhole, List.length_take, Nat.min_eq_left hle] at hcut
  | case3 known next beyond =>
    have hcut := (h.sublist (List.drop_sublist known items)).cuts_bisect side
    have hcut := hcut.append_left hknown
    rwa [List.take_append_drop, List.length_take, Nat.min_eq_left hle] at hcut

theorem cuts_gallop (side : Side) (h : HoldsUpToPoint p items) :
    Cuts p items (gallop side p items) := by
  match items with
  | [] => exact cuts_nil
  | a :: rest =>
    rw [gallop]
    by_cases hp : p a = true
    · rw [if_pos hp]
      refine h.cuts_stride side ?_ (by simp) (Nat.le_refl _)
      simpa using hp
    · rw [if_neg hp]
      exact ⟨Nat.zero_le _, by simp, h.drop_of_neg (i := 0) (by simp) hp⟩

end HoldsUpToPoint

/-! ## Conditions on the items of an ascending list -/

namespace Ascending

theorem holdsUpToPoint_not_above (ho : Orders lt P) (h : Ascending lt P items) (ha : P a) :
    HoldsUpToPoint (fun b ↦ !lt a b) items := by
  refine h.pairwise.imp_of_mem fun {b c} hb hc hbc hp ↦ ?_
  rw [Bool.not_eq_true'] at hp ⊢
  exact ho.trans (h.fit b hb) (h.fit c hc) ha hbc hp

theorem holdsUpToPoint_below (ho : Orders lt P) (h : Ascending lt P items) (ha : P a) :
    HoldsUpToPoint (fun b ↦ lt b a) items := by
  refine h.pairwise.imp_of_mem fun {b c} hb hc hbc hp ↦ ?_
  by_contra hnot
  have hle : lt b a = false := Bool.not_eq_true _ ▸ hnot
  have hfalse : lt c a = false := ho.trans ha (h.fit b hb) (h.fit c hc) hle hbc
  exact absurd (hp.symm.trans hfalse) (by decide)

end Ascending

/-! ## Insertion -/

theorem Ascending.insert (ho : Orders lt P) (h : Ascending lt P items) (ha : P a) :
    Ascending lt P (insert lt a items) := by
  have hcut := (h.holdsUpToPoint_not_above ho ha).cuts_bisect .front
  rw [Sorting.insert]
  generalize bisect .front (fun b ↦ !lt a b) items = behind at hcut ⊢
  have hno : ∀ b ∈ items.drop behind, lt b a = false := by
    intro b hb
    have hlt := hcut.no b hb
    rw [Bool.not_eq_false'] at hlt
    exact ho.asymm ha (h.fit b (List.mem_of_mem_drop hb)) hlt
  have hwhole := h
  rw [← List.take_append_drop behind items] at hwhole
  obtain ⟨hbefore, hafter, hacross⟩ := ascending_append.mp hwhole
  refine ascending_append.mpr ⟨hbefore, ascending_cons.mpr ⟨ha, hno, hafter⟩, fun b hb c hc ↦ ?_⟩
  rcases List.mem_cons.mp hc with rfl | hc
  · have hle := hcut.yes b hb
    rwa [Bool.not_eq_true'] at hle
  · exact hacross b hb c hc

theorem Ascending.insertAll (ho : Orders lt P) {rest : List α} (h : Ascending lt P items)
    (hrest : ∀ a ∈ rest, P a) : Ascending lt P (insertAll lt items rest) := by
  induction rest generalizing items with
  | nil => exact h
  | cons a rest ih =>
    exact ih (h.insert ho (hrest a List.mem_cons_self))
      fun b hb ↦ hrest b (List.mem_cons_of_mem _ hb)

/-! ## Runs -/

private theorem ascending_of_isChain (ho : Orders lt P) (hfit : ∀ a ∈ items, P a)
    (hchain : items.IsChain fun a b ↦ lt b a = false) : Ascending lt P items := by
  induction items with
  | nil => exact ascending_nil
  | cons a rest ih =>
    have ha := hfit a List.mem_cons_self
    have hrest := ih (fun b hb ↦ hfit b (List.mem_cons_of_mem _ hb)) hchain.tail
    refine ascending_cons.mpr ⟨ha, hrest.not_above_of_head ho ha ?_, hrest⟩
    intro b hb
    exact (List.isChain_cons.mp hchain).1 b hb

private theorem isChain_runLength (falling : Bool) (last : α) (rest : List α) :
    (last :: rest.take (runLength lt falling last rest)).IsChain fun a b ↦ lt b a = falling := by
  induction rest generalizing last with
  | nil => simp [runLength]
  | cons a rest ih =>
    rw [runLength]
    by_cases hstep : (lt a last == falling) = true
    · rw [if_pos hstep, Nat.add_comm, List.take_succ_cons]
      exact List.IsChain.cons_cons (beq_iff_eq.mp hstep) (ih a)
    · rw [if_neg hstep]
      simp

private theorem isChain_firstRun (lt : α → α → Bool) (a b : α) (rest : List α) :
    ((a :: b :: rest).take (2 + runLength lt (lt b a) b rest)).IsChain
      fun x y ↦ lt y x = lt b a := by
  rw [Nat.add_comm, List.take_succ_cons, List.take_succ_cons]
  exact List.IsChain.cons_cons rfl (isChain_runLength (lt b a) b rest)

private theorem ascending_firstRun (ho : Orders lt P) (hfit : ∀ a ∈ items, P a) :
    Ascending lt P (firstRun lt items).1 := by
  match items with
  | [] => exact ascending_nil
  | [a] => exact ascending_cons.mpr ⟨hfit a List.mem_cons_self, by simp, ascending_nil⟩
  | a :: b :: rest =>
    have hchain := isChain_firstRun lt a b rest
    simp only [firstRun]
    generalize 2 + runLength lt (lt b a) b rest = count at hchain ⊢
    have hrun : ∀ c ∈ (a :: b :: rest).take count, P c := fun c hc ↦
      hfit c (List.mem_of_mem_take hc)
    by_cases hfalling : lt b a = true
    · -- a run that falls is one that ascends in the order from the other end
      rw [if_pos hfalling]
      rw [hfalling] at hchain
      refine (ascending_of_isChain ho.flip hrun ?_).reverse
      exact hchain.imp_of_mem_imp fun x y hx hy h ↦ ho.asymm (hrun y hy) (hrun x hx) h
    · rw [if_neg hfalling]
      rw [Bool.not_eq_true] at hfalling
      rw [hfalling] at hchain
      exact ascending_of_isChain ho hrun hchain

private theorem fit_firstRun (lt : α → α → Bool) (hfit : ∀ a ∈ items, P a) :
    ∀ a ∈ (firstRun lt items).2, P a := fun a ha ↦
  hfit a ((firstRun_perm lt items).subset (List.mem_append_right _ ha))

private theorem ascending_takeRun (ho : Orders lt P) (least : Nat) (hfit : ∀ a ∈ items, P a) :
    Ascending lt P (takeRun lt least items).1 := by
  have hrest := fit_firstRun lt hfit
  exact (ascending_firstRun ho hfit).insertAll ho fun a ha ↦ hrest a (List.mem_of_mem_take ha)

theorem ascending_runs (ho : Orders lt P) (least : Nat) (hfit : ∀ a ∈ items, P a) :
    ∀ run ∈ runs lt least items, Ascending lt P run := by
  fun_induction runs lt least items with
  | case1 => simp
  | case2 a items ih =>
    intro run hrun
    rcases List.mem_cons.mp hrun with rfl | hrun
    · exact ascending_takeRun ho least hfit
    · refine ih (fun b hb ↦ ?_) run hrun
      exact hfit b ((takeRun_perm lt least _).subset (List.mem_append_right _ hb))

end Sorting

end SceneSearch
