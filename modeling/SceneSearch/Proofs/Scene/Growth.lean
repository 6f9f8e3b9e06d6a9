import Mathlib.Data.List.Basic
import SceneSearch.Scene.Node

/-!
# Trees that grow

A tree is built by appending children to nodes that it has already, which are named by their
addresses. A new child is the foremost, so every address goes on to name the node that it did, and
what is appended to different nodes may be appended in either order: `Node.append_comm`.
-/

namespace SceneSearch.Node

variable {n c : Node} {a b p : List Nat} {xs ys : List Node}

/-! ## Addresses -/

theorem at?_cons (i : Nat) (a : List Nat) (n : Node) :
    n.at? (i :: a) = n.children[i]?.bind (at? a) := by
  rw [at?]
  cases n.children[i]? <;> rfl

private theorem lt_of_at?_cons {i : Nat} (h : (n.at? (i :: a)).isSome) :
    ∃ hi : i < n.children.length, (n.children[i].at? a).isSome := by
  rw [at?_cons, Option.isSome_bind] at h
  cases hc : n.children[i]? with
  | none => simp [hc] at h
  | some c =>
    obtain ⟨hi, rfl⟩ := List.getElem?_eq_some_iff.mp hc
    exact ⟨hi, by simpa [hc] using h⟩

private theorem nextAddress_cons {i : Nat} (hi : i < n.children.length) :
    n.nextAddress (i :: p) = i :: n.children[i].nextAddress p := by
  rw [nextAddress, at?_cons, List.getElem?_eq_getElem hi]
  rfl

private theorem append_nil_eq (n : Node) (xs : List Node) :
    n.append [] xs = ⟨n.layer, n.children ++ xs⟩ := rfl

private theorem append_cons_eq (i : Nat) (a : List Nat) (n : Node) (xs : List Node) :
    n.append (i :: a) xs = ⟨n.layer, n.children.modify i fun c ↦ c.append a xs⟩ := rfl

private theorem modify_append_of_lt {α : Type} {l : List α} {i : Nat} (hi : i < l.length)
    (f : α → α) (r : List α) : (l ++ r).modify i f = l.modify i f ++ r := by
  have hi' : i < (l ++ r).length := by
    rw [List.length_append]
    omega
  rw [List.modify_eq_take_cons_drop hi, List.modify_eq_take_cons_drop hi',
    List.take_append_of_le_length (by omega), List.drop_append_of_le_length (by omega),
    List.getElem_append_left hi, List.append_assoc, List.cons_append]

/-! ## Appending -/

theorem append_nil (n : Node) (a : List Nat) : n.append a [] = n := by
  induction a generalizing n with
  | nil =>
    obtain ⟨layer, children⟩ := n
    rw [append_nil_eq, List.append_nil]
  | cons i a ih =>
    obtain ⟨layer, children⟩ := n
    have hsame : (fun c : Node ↦ c.append a []) = id := funext ih
    rw [append_cons_eq, hsame, List.modify_id]

theorem append_append (n : Node) (a : List Nat) (xs ys : List Node) :
    (n.append a xs).append a ys = n.append a (xs ++ ys) := by
  induction a generalizing n with
  | nil => simp [append_nil_eq]
  | cons i a ih =>
    rw [append_cons_eq, append_cons_eq, append_cons_eq, List.modify_modify_eq]
    congr 2
    funext c
    exact ih c

theorem append_comm (hne : a ≠ b) (ha : (n.at? a).isSome) (hb : (n.at? b).isSome) :
    (n.append a xs).append b ys = (n.append b ys).append a xs := by
  induction a generalizing b n with
  | nil =>
    cases b with
    | nil => exact absurd rfl hne
    | cons j b =>
      obtain ⟨hj, -⟩ := lt_of_at?_cons hb
      simp only [append_nil_eq, append_cons_eq, modify_append_of_lt hj]
  | cons i a ih =>
    obtain ⟨hi, ha⟩ := lt_of_at?_cons ha
    cases b with
    | nil => simp only [append_nil_eq, append_cons_eq, modify_append_of_lt hi]
    | cons j b =>
      obtain ⟨hj, hb⟩ := lt_of_at?_cons hb
      simp only [append_cons_eq]
      by_cases hij : i = j
      · subst hij
        have hchild := ih (n := n.children[i]) (fun h ↦ hne (congrArg _ h)) ha hb
        rw [List.modify_modify_eq, List.modify_modify_eq, List.modify_eq_take_cons_drop hi,
          List.modify_eq_take_cons_drop hi]
        simp only [Function.comp_apply, hchild]
      · rw [List.modify_modify_ne _ _ _ hij]

theorem isSome_at?_append (h : (n.at? a).isSome) : ((n.append b xs).at? a).isSome := by
  induction a generalizing b n with
  | nil => rfl
  | cons i a ih =>
    obtain ⟨hi, ha⟩ := lt_of_at?_cons h
    cases b with
    | nil =>
      rw [append_nil_eq, at?_cons, List.getElem?_append_left hi, List.getElem?_eq_getElem hi]
      exact ha
    | cons j b =>
      rw [append_cons_eq, at?_cons]
      simp only [List.getElem?_modify, List.getElem?_eq_getElem hi]
      by_cases hij : j = i
      · simpa [hij] using ih ha
      · simpa [hij] using ha

theorem at?_nextAddress (h : (n.at? p).isSome) : n.at? (n.nextAddress p) = none := by
  induction p generalizing n with
  | nil => simp [nextAddress, at?]
  | cons i p ih =>
    obtain ⟨hi, hp⟩ := lt_of_at?_cons h
    rw [nextAddress_cons hi, at?_cons, List.getElem?_eq_getElem hi]
    exact ih hp

theorem isSome_at?_nextAddress (h : (n.at? p).isSome) (c : Node) :
    ((n.append p [c]).at? (n.nextAddress p)).isSome := by
  induction p generalizing n with
  | nil => simp [nextAddress, append_nil_eq, at?]
  | cons i p ih =>
    obtain ⟨hi, hp⟩ := lt_of_at?_cons h
    rw [nextAddress_cons hi, append_cons_eq, at?_cons]
    simpa [List.getElem?_modify, List.getElem?_eq_getElem hi] using ih hp

theorem append_nextAddress (h : (n.at? p).isSome) (c : Node) (xs : List Node) :
    (n.append p [c]).append (n.nextAddress p) xs = n.append p [⟨c.layer, c.children ++ xs⟩] := by
  induction p generalizing n with
  | nil =>
    have hlast : n.nextAddress [] = [n.children.length] := rfl
    rw [hlast, append_nil_eq, append_cons_eq,
      List.modify_eq_take_cons_drop (i := n.children.length) (by simp)]
    simp [append_nil_eq]
  | cons i p ih =>
    obtain ⟨hi, hp⟩ := lt_of_at?_cons h
    rw [nextAddress_cons hi]
    simp only [append_cons_eq]
    rw [List.modify_modify_eq, List.modify_eq_take_cons_drop hi, List.modify_eq_take_cons_drop hi]
    simp only [Function.comp_apply, ih hp]

end SceneSearch.Node
