import Mathlib.Data.List.Perm.Basic
import SceneSearch.Proofs.Sorting.Merging
import SceneSearch.Sorting.Adaptive

/-!
# What is sorted is in order

Runs that ascend are joined to runs that ascend, in whatever order they are joined and wherever
galloping begins and ends, so a sorted list ascends. Where no two items have the same rank, it is
the only ascending list of its items, and the order in which they came makes no difference.
-/

namespace SceneSearch

namespace Sorting

variable {α : Type} {lt : α → α → Bool} {P : α → Prop}

/-! ## Joining two runs -/

/-- The items of a run that stay where they are, before the first item of the other run comes. -/
theorem stay_before (ho : Orders lt P) {a rest : List α} {first : α} (ha : Ascending lt P a)
    (hb : Ascending lt P (first :: rest)) {before : Nat}
    (h : gallop .front (fun x ↦ !lt first x) a = before) :
    (∀ x ∈ a.take before, ∀ y ∈ first :: rest, lt y x = false) ∧
      ∀ x ∈ a.drop before, lt first x = true := by
  have hcut := (ha.holdsUpToPoint_not_above ho (hb.fit first List.mem_cons_self)).cuts_gallop .front
  rw [h] at hcut
  constructor
  · intro x hx
    refine hb.not_above_of_head ho (ha.fit x (List.mem_of_mem_take hx)) fun y hy ↦ ?_
    obtain rfl := Option.some.inj hy
    simpa using hcut.yes x hx
  · intro x hx
    simpa using hcut.no x hx

/-- The items of a run that stay where they are, after the last item of the other run is gone. -/
theorem stay_after (ho : Orders lt P) {inner b : List α} {last : α} (hinner : Ascending lt P inner)
    (hb : Ascending lt P b) (hlast : inner.getLast? = some last) {after : Nat}
    (h : b.length - gallop .back (fun x ↦ !lt x last) b.reverse = after) :
    (∀ x ∈ inner, ∀ y ∈ b.drop after, lt y x = false) ∧ ∀ y ∈ b.take after, lt y last = true := by
  have hfit := hinner.fit last (List.mem_of_getLast? hlast)
  have hcut := (hb.reverse.holdsUpToPoint_not_above ho.flip hfit).cuts_gallop .back
  constructor
  · intro x hx y hy
    have hstay : lt y last = false := by
      simpa using hcut.yes y (by rwa [List.take_reverse, h, List.mem_reverse])
    refine hinner.not_below_of_last ho (hb.fit y (List.mem_of_mem_drop hy)) (fun z hz ↦ ?_) x hx
    obtain rfl := Option.some.inj (hlast.symm.trans hz)
    exact hstay
  · intro y hy
    simpa using hcut.no y (by rwa [List.drop_reverse, h, List.mem_reverse])

/-- What is between the items that stay where they are is merged, from either end. -/
theorem ascending_between (ho : Orders lt P) (threshold : Nat) {inner outer : List α}
    (hinner : Ascending lt P inner) (houter : Ascending lt P outer)
    (hfirst : ∀ y ∈ outer.head?, ∀ x ∈ inner, lt y x = true)
    (hlast : ∀ x ∈ inner.getLast?, ∀ y ∈ outer, lt y x = true) :
    Ascending lt P (mergeRuns lt .front threshold outer inner).1 ∧
      Ascending lt P (mergeRuns (fun x y ↦ lt y x) .back threshold inner.reverse
        outer.reverse).1.reverse := by
  have hfirst' : ∀ y ∈ outer.head?, ∀ x ∈ inner, lt x y = false := fun y hy x hx ↦
    ho.asymm (houter.fit y (List.mem_of_mem_head? hy)) (hinner.fit x hx) (hfirst y hy x hx)
  have hlast' : ∀ x ∈ inner.getLast?, ∀ y ∈ outer, lt x y = false := fun x hx y hy ↦
    ho.asymm (houter.fit y hy) (hinner.fit x (List.mem_of_getLast? hx)) (hlast x hx y hy)
  constructor
  · exact ascending_mergeRuns ho .front threshold houter hinner hfirst' hlast'
  · refine (ascending_mergeRuns ho.flip .back threshold hinner.reverse houter.reverse ?_ ?_).reverse
    · intro x hx y hy
      rw [List.head?_reverse] at hx
      exact hlast' x hx y (List.mem_reverse.mp hy)
    · intro y hy x hx
      rw [List.getLast?_reverse] at hy
      exact hfirst' y hy x (List.mem_reverse.mp hx)

private theorem ascending_around {a b middle : List α} {before after : Nat} (ha : Ascending lt P a)
    (hb : Ascending lt P b) (hmiddle : Ascending lt P middle)
    (hperm : middle.Perm (a.drop before ++ b.take after))
    (hbefore : ∀ x ∈ a.take before, ∀ y ∈ b, lt y x = false)
    (hafter : ∀ x ∈ a.drop before, ∀ y ∈ b.drop after, lt y x = false) :
    Ascending lt P (a.take before ++ (middle ++ b.drop after)) := by
  obtain ⟨-, -, ha'⟩ := ascending_append.mp ((List.take_append_drop before a).symm ▸ ha)
  obtain ⟨-, -, hb'⟩ := ascending_append.mp ((List.take_append_drop after b).symm ▸ hb)
  refine ascending_append.mpr ⟨ha.take before, ascending_append.mpr ⟨hmiddle, hb.drop after,
    fun x hx y hy ↦ ?_⟩, fun x hx y hy ↦ ?_⟩
  · rcases List.mem_append.mp (hperm.subset hx) with hx | hx
    · exact hafter x hx y hy
    · exact hb' x hx y hy
  · rcases List.mem_append.mp hy with hy | hy
    · rcases List.mem_append.mp (hperm.subset hy) with hy | hy
      · exact ha' x hx y hy
      · exact hbefore x hx y (List.mem_of_mem_take hy)
    · exact hbefore x hx y (List.mem_of_mem_drop hy)

theorem ascending_joinRuns (ho : Orders lt P) (threshold : Nat) {a b : List α}
    (ha : Ascending lt P a) (hb : Ascending lt P b) :
    Ascending lt P (joinRuns lt threshold a b).1 := by
  match b with
  | [] => exact ha
  | first :: rest =>
    simp only [joinRuns]
    generalize hgallop : gallop .front (fun x ↦ !lt first x) a = before
    obtain ⟨hbefore, hmove⟩ := stay_before ho ha hb hgallop
    split
    · rename_i hnone
      -- the first item of `b` is below none of `a`
      rw [List.getLast?_eq_none_iff, List.drop_eq_nil_iff] at hnone
      rw [List.take_of_length_le hnone] at hbefore
      exact ascending_append.mpr ⟨ha, hb, hbefore⟩
    · rename_i last hlast
      generalize hgallop' :
        (first :: rest).length - gallop .back (fun x ↦ !lt x last) (first :: rest).reverse = after
      have hinner := ha.drop before
      obtain ⟨hafter, hmove'⟩ := stay_after ho hinner hb hlast hgallop'
      have hfirst : ∀ y ∈ ((first :: rest).take after).head?, ∀ x ∈ a.drop before,
          lt y x = true := by
        intro y hy x hx
        rw [List.head?_take] at hy
        split at hy
        · cases hy
        · obtain rfl := Option.some.inj hy
          exact hmove x hx
      have hlast' : ∀ x ∈ (a.drop before).getLast?, ∀ y ∈ (first :: rest).take after,
          lt y x = true := by
        intro x hx
        obtain rfl := Option.some.inj (hlast.symm.trans hx)
        exact hmove'
      obtain ⟨hfront, hback⟩ :=
        ascending_between ho threshold hinner (hb.take after) hfirst hlast'
      refine ascending_around ha hb ?_ ?_ hbefore hafter
      · split
        · exact hinner
        · split
          · exact hfront
          · exact hback
      · split
        · rename_i hempty
          rw [List.isEmpty_iff.mp hempty, List.append_nil]
        · split
          · exact (mergeRuns_perm ..).trans List.perm_append_comm
          · refine (List.reverse_perm _).trans ((mergeRuns_perm ..).trans ?_)
            exact (List.reverse_perm _).append (List.reverse_perm _)

/-! ## Joining all runs -/

private theorem ascending_collapse (ho : Orders lt P) (power threshold : Nat) {run : List α}
    {waiting : List (Waiting α)} (hrun : Ascending lt P run)
    (hwaiting : ∀ w ∈ waiting, Ascending lt P w.run) :
    Ascending lt P (collapse lt power threshold run waiting).2.1 ∧
      ∀ w ∈ (collapse lt power threshold run waiting).2.2, Ascending lt P w.run := by
  induction waiting generalizing threshold run with
  | nil => exact ⟨hrun, hwaiting⟩
  | cons top waiting ih =>
    obtain ⟨htop, hrest⟩ := List.forall_mem_cons.mp hwaiting
    rw [collapse]
    split
    · exact ih _ (ascending_joinRuns ho threshold htop hrun) hrest
    · exact ⟨hrun, hwaiting⟩

private theorem ascending_joinWaiting (ho : Orders lt P) (threshold : Nat) {run : List α}
    {waiting : List (Waiting α)} (hrun : Ascending lt P run)
    (hwaiting : ∀ w ∈ waiting, Ascending lt P w.run) :
    Ascending lt P (joinWaiting lt threshold run waiting) := by
  fun_induction joinWaiting lt threshold run waiting with
  | case1 => exact hrun
  | case2 threshold run top =>
    exact ascending_joinRuns ho threshold (hwaiting top List.mem_cons_self) hrun
  | case3 threshold run top next waiting _ joined threshold' eq ih =>
    obtain ⟨htop, hrest⟩ := List.forall_mem_cons.mp hwaiting
    obtain ⟨hnext, hrest⟩ := List.forall_mem_cons.mp hrest
    have hjoined := ascending_joinRuns ho threshold hnext htop
    rw [eq] at hjoined
    exact ih hrun (List.forall_mem_cons.mpr ⟨hjoined, hrest⟩)
  | case4 threshold run top next waiting _ joined threshold' eq ih =>
    obtain ⟨htop, hrest⟩ := List.forall_mem_cons.mp hwaiting
    have hjoined := ascending_joinRuns ho threshold htop hrun
    rw [eq] at hjoined
    exact ih hjoined hrest

private theorem ascending_joinAll (ho : Orders lt P) (n threshold start : Nat) {run : List α}
    {waiting : List (Waiting α)} {runs : List (List α)} (hrun : Ascending lt P run)
    (hwaiting : ∀ w ∈ waiting, Ascending lt P w.run) (hruns : ∀ r ∈ runs, Ascending lt P r) :
    Ascending lt P (joinAll lt n threshold start run waiting runs) := by
  induction runs generalizing threshold start run waiting with
  | nil => exact ascending_joinWaiting ho threshold hrun hwaiting
  | cons next runs ih =>
    obtain ⟨hnext, hrest⟩ := List.forall_mem_cons.mp hruns
    obtain ⟨hjoined, hleft⟩ := ascending_collapse ho
      (boundaryPower n start run.length next.length) threshold hrun hwaiting
    exact ih _ _ hnext (List.forall_mem_cons.mpr ⟨hjoined, hleft⟩) hrest

end Sorting

open Sorting

variable {α : Type} {lt : α → α → Bool} {P : α → Prop} {items : List α}

/-- **A sorted list ascends**, whatever the list was, if the comparison is an order of its items. -/
theorem ascending_sortBy (ho : Orders lt P) (hfit : ∀ a ∈ items, P a) :
    Ascending lt P (sortBy lt items) := by
  have hruns := ascending_runs ho (leastRun items.length) hfit
  rw [sortBy]
  split
  · exact ascending_nil
  · rename_i run runs hcut
    rw [hcut] at hruns
    obtain ⟨hrun, hrest⟩ := List.forall_mem_cons.mp hruns
    exact ascending_joinAll ho _ _ _ hrun (by simp) hrest

/-- Items of different ranks are sorted to the same list in whatever order they come. -/
theorem sortBy_eq_of_perm (ho : Orders lt P)
    (htotal : ∀ {a b}, P a → P b → lt a b = false → lt b a = false → a = b)
    (hfit : ∀ a ∈ items, P a) {others : List α} (hperm : others.Perm items) :
    sortBy lt others = sortBy lt items := by
  have hsorted := ascending_sortBy ho hfit
  have hothers := ascending_sortBy ho fun a ha ↦ hfit a (hperm.subset ha)
  have hboth : (sortBy lt others).Perm (sortBy lt items) :=
    (sortBy_perm lt others).trans (hperm.trans (sortBy_perm lt items).symm)
  refine hboth.eq_of_pairwise (fun a b ha hb hab hba ↦ ?_) hothers.pairwise hsorted.pairwise
  exact htotal (hothers.fit a ha) (hsorted.fit b hb) hba hab

theorem exists_perm_map {α β : Type} {f : α → β} {items : List α} {sorted : List β}
    (h : sorted.Perm (items.map f)) :
    ∃ ranked : List α, ranked.Perm items ∧ ranked.map f = sorted := by
  rw [← congrFun₂ (List.eq_map_comp_perm f) sorted items] at h
  obtain ⟨ranked, hmap, hperm⟩ := h
  exact ⟨ranked, hperm, hmap.symm⟩

end SceneSearch
