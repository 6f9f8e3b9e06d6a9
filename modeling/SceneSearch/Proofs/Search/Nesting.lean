import SceneSearch.Proofs.Search.Nodes

/-!
# Matches inside matches

A match may hold other matches, and as scopes of the next segment the inner ones find again what the
outer ones do. Two facts on the lists of matches make sure that nothing depends on them: a node
stands in front of what it holds, `OuterFirst`, and between two matches of which one holds the other
nothing is hidden, `SeenWithin`. Both are kept by a segment, and both hold of starting scopes, of
which none holds another one.
-/

namespace SceneSearch

open Evaluation

variable {r s t : Spot} {spots scopes : List Spot} {find : Spot → List Spot}

/-! ## Outer nodes first -/

/-- Whatever holds a node of the list is in front of that node, if it is in the list. -/
def OuterFirst (spots : List Spot) : Prop :=
  ∀ before t after, spots = before ++ t :: after → ∀ s ∈ spots, s.Holds t → s ∈ before

private theorem outerFirst_of_pairwise (ht : r.IsTree) (hspots : ∀ s ∈ spots, r.Reaches s)
    (h : spots.Pairwise fun a b ↦ ¬b.Holds a) : OuterFirst spots := by
  rintro before t after rfl s hs hst
  obtain ⟨-, hafter, -⟩ := List.pairwise_append.mp h
  rcases List.mem_append.mp hs with hs | hs
  · exact hs
  · rcases List.mem_cons.mp hs with rfl | hs
    · exact absurd hst (ht.not_holds_self (hspots s (by simp)))
    · exact absurd hst ((List.pairwise_cons.mp hafter).1 s hs)

/-- Outer nodes that come first, and no node twice: nothing stands behind what it holds. -/
theorem OuterFirst.pairwise (h : OuterFirst spots) (hnodup : spots.Nodup) :
    spots.Pairwise fun a b ↦ ¬b.Holds a := by
  rw [List.pairwise_iff_forall_sublist]
  intro a b hab hholds
  obtain ⟨front, back, rfl, ha, hb⟩ := List.cons_sublist_iff.mp hab
  obtain ⟨before, after, rfl⟩ := List.append_of_mem ha
  have hback : b ∈ back := List.singleton_sublist.mp hb
  have hbefore : b ∈ before :=
    h before a (after ++ back) (by simp) b (List.mem_append_right _ hback) hholds
  exact (List.nodup_append.mp hnodup).2.2 b (List.mem_append_left _ hbefore) b hback rfl

theorem exists_of_flatMap_eq_append {α β : Type} {f : α → List β} {items : List α}
    {before after : List β} {b : β} (h : items.flatMap f = before ++ b :: after) :
    ∃ front a back init rest, items = front ++ a :: back ∧ f a = init ++ b :: rest ∧
      before = front.flatMap f ++ init := by
  induction items generalizing before with
  | nil => simp at h
  | cons a items ih =>
    rw [List.flatMap_cons] at h
    rcases List.append_eq_append_iff.mp h with ⟨more, hbefore, hmore⟩ | ⟨more, hfa, hmore⟩
    · obtain ⟨front, c, back, init, rest, rfl, hc, rfl⟩ := ih hmore
      refine ⟨a :: front, c, back, init, rest, rfl, hc, ?_⟩
      rw [hbefore, List.flatMap_cons, List.append_assoc]
    · rcases more with _ | ⟨c, more⟩
      · -- what is looked for is the first item behind those of `a`
        obtain ⟨front, c, back, init, rest, rfl, hc, hinit⟩ := @ih [] hmore.symm
        refine ⟨a :: front, c, back, init, rest, rfl, hc, ?_⟩
        rw [List.flatMap_cons, List.append_assoc, ← hinit, List.append_nil, hfa, List.append_nil]
      · obtain ⟨rfl, -⟩ := List.cons.inj hmore
        exact ⟨[], a, items, before, more, rfl, hfa, rfl⟩

/-- **What is found from nodes in which outer ones come first comes outer ones first**, if an outer
scope finds whatever an inner one finds above one of its own matches. -/
theorem OuterFirst.flatMap (ht : r.IsTree) (hscopes : ∀ s ∈ scopes, r.Reaches s)
    (h : OuterFirst scopes) (hbelow : ∀ s ∈ scopes, ∀ t ∈ find s, s.Reaches t)
    (hfind : ∀ s ∈ scopes, OuterFirst (find s))
    (htake : ∀ s ∈ scopes, ∀ s' ∈ scopes, s.Reaches s' →
      ∀ a ∈ find s', ∀ t ∈ find s, a.Holds t → a ∈ find s) :
    OuterFirst (scopes.flatMap find) := by
  intro before t after heq a hmem hat
  obtain ⟨s', hs', ha⟩ := List.mem_flatMap.mp hmem
  obtain ⟨front, s, back, init, rest, rfl, hinit, rfl⟩ := exists_of_flatMap_eq_append heq
  have hs : s ∈ front ++ s :: back := by simp
  have hts : t ∈ find s := by
    rw [hinit]
    simp
  have hs't := (hbelow s' hs' a ha).trans hat.reaches
  rcases ht.reaches_or_holds (hscopes s hs) (hscopes s' hs') (hbelow s hs t hts) hs't with
    hreach | hholds
  · have hown := htake s hs s' hs' hreach a ha t hts hat
    exact List.mem_append_right _ (hfind s hs init t rest hinit a hown hat)
  · -- the other scope holds this one, so all of its matches are in front
    have hfront : s' ∈ front := h front s back rfl s' hs' hholds
    exact List.mem_append_left _ (List.mem_flatMap.mpr ⟨s', hfront, ha⟩)

theorem OuterFirst.distinctSpots (ht : r.IsTree) (hspots : ∀ s ∈ spots, r.Reaches s)
    (h : OuterFirst spots) : OuterFirst (distinctSpots spots) := by
  intro before t after heq a ha hat
  have hkept : ∀ {b}, b ∈ SceneSearch.distinctSpots spots → r.Reaches b := fun hb ↦
    hspots _ (mem_of_firstOccurrences hb)
  obtain ⟨front, back, rfl, hfront⟩ := exists_of_firstOccurrences_eq_append heq
  have hmem : a ∈ front := h front t back rfl a (mem_of_firstOccurrences ha) hat
  have hplace : a.place ∈ before.map Spot.place := (hfront a hmem).resolve_left List.not_mem_nil
  obtain ⟨b, hb, hplace⟩ := List.mem_map.mp hplace
  have hb' : b ∈ SceneSearch.distinctSpots (front ++ t :: back) := heq ▸ List.mem_append_left _ hb
  rwa [← ht.eq_of_place (hkept hb') (hkept ha) hplace]

/-! ## Nothing hidden in between -/

/-- Between two nodes of the list nothing is hidden, the lower one of them included. -/
def SeenWithin (spots : List Spot) : Prop :=
  ∀ s ∈ spots, ∀ t ∈ spots, s.Holds t → ∀ u, s.Holds u → u.Reaches t → u.visible = true

theorem SeenWithin.subset {other : List Spot} (h : SeenWithin spots) (hsub : other ⊆ spots) :
    SeenWithin other := fun s hs t ht ↦ h s (hsub hs) t (hsub ht)

theorem SeenWithin.flatMap (ht : r.IsTree) (hscopes : ∀ s ∈ scopes, r.Reaches s)
    (h : SeenWithin scopes) (hbelow : ∀ s ∈ scopes, ∀ t ∈ find s, s.Reaches t)
    (hseen : ∀ s ∈ scopes, ∀ t ∈ find s, ∀ u, s.Holds u → u.Reaches t → u.visible = true) :
    SeenWithin (scopes.flatMap find) := by
  intro a ha b hb hab u hau hub
  obtain ⟨s, hs, ha⟩ := List.mem_flatMap.mp ha
  obtain ⟨s', hs', hb⟩ := List.mem_flatMap.mp hb
  have hsu : s.Holds u := Relation.TransGen.trans_right (hbelow s hs a ha) hau
  have hs'b := hbelow s' hs' b hb
  have hu : r.Reaches u := (hscopes s hs).trans hsu.reaches
  -- `u` and the scope of the lower match are on the same way down
  rcases ht.reaches_or_holds hu (hscopes s' hs') hub hs'b with hus' | hs'u
  · exact h s hs s' hs' (hsu.trans_left hus') u hsu hus'
  · exact hseen s' hs' b hb u hs'u hub

/-! ## Ways that a query allows -/

section

variable {m : QueryModifiers} {isFinal : Bool} {way way' : Spot → Prop}

theorem QueryModifiers.resolve_eq_default (h : m.includesHidden = false) :
    VisibilityMode.resolve m.hiddenOnly m.allLayers isFinal = .default := by
  obtain ⟨hhidden, hall⟩ := Bool.or_eq_false_iff.mp h
  rw [hhidden, hall]
  rfl

theorem QueryModifiers.Allows.visible_of_way (h : m.Allows isFinal way t)
    (hvisible : m.includesHidden = false) {u : Spot} (hu : way u) : u.visible = true := by
  obtain ⟨hhidden, hall⟩ := Bool.or_eq_false_iff.mp hvisible
  rw [QueryModifiers.Allows, hhidden, hall] at h
  exact h u hu

/-- Another way to the same node is allowed if nothing on it is hidden, or if hidden layers take
part. -/
theorem QueryModifiers.Allows.of_way (h : m.Allows isFinal way t)
    (hway : m.includesHidden = false → ∀ u, way' u → u.visible = true) :
    m.Allows isFinal way' t := by
  rw [QueryModifiers.Allows] at h ⊢
  split
  · rename_i hhidden
    rw [if_pos hhidden] at h
    exact h
  · rename_i hhidden
    split
    · trivial
    · rename_i hall
      exact hway (Bool.or_eq_false_iff.mpr ⟨by simpa using hhidden, by simpa using hall⟩)

end

/-! ## Matches of one scope -/

section

variable {d : Document} {segment : SegmentPlan} {matcher : NameMatcher} {host : Host}
  {bulk allowSelf : Bool}

private theorem pairwise_matchesBelow (ht : r.IsTree) (hs : r.Reaches s) :
    (matchesBelow segment matcher s bulk host).Pairwise fun a b ↦ ¬b.Holds a := by
  have hchildren : (s.shownChildren host.shown).Pairwise fun a b ↦ ¬b.Holds a := by
    refine List.pairwise_of_forall_mem_list fun a ha b hb ↦ ?_
    exact ht.not_holds_sibling hs (Spot.mem_children_of_mem_shownChildren hb)
      (Spot.mem_children_of_mem_shownChildren ha)
  rw [matchesBelow]
  split
  · exact hchildren.filter _
  · split
    · exact (((ht.pairwise_descendants hs).filter _).filter _).filter _
    · exact (ht.pairwise_descendants hs).filter _

private theorem outerFirst_finder (ht : r.IsTree) (hs : r.Reaches s) :
    OuterFirst (finder bulk host segment allowSelf s) := by
  have hown : ∀ a ∈ (if allowSelf then ownMatches segment (.ofQuery segment.nameQuery) s else []),
      a = s := by
    intro a ha
    split at ha
    · exact eq_of_mem_ownMatches ha
    · cases ha
  refine outerFirst_of_pairwise ht
    (fun t h ↦ hs.trans (reaches_of_mem_finder ht hs h)) (List.pairwise_append.mpr ⟨?_, ?_, ?_⟩)
  · refine List.pairwise_of_forall_mem_list fun a ha b hb hholds ↦ ?_
    rw [hown a ha, hown b hb] at hholds
    exact ht.not_holds_self hs hholds
  · exact pairwise_matchesBelow ht hs
  · intro a ha b hb hholds
    rw [hown a ha] at hholds
    exact ht.not_holds_self hs ((holds_of_mem_matchesBelow ht hs hb).trans hholds)

theorem mem_finder_iff_leadsTo (hd : d.Orderly) (hs : d.root.Holds s)
    (hdefault : segment.visibility = .default) :
    t ∈ finder true host segment allowSelf s ↔ segment.LeadsTo {} true allowSelf s t :=
  mem_finder_iff hd hs hdefault (Or.inl hdefault)

theorem visible_of_mem_finder {u : Spot} (hd : d.Orderly) (hs : d.root.Holds s)
    (hdefault : segment.visibility = .default) (ht : t ∈ finder true host segment allowSelf s)
    (hsu : s.Holds u) (hut : u.Reaches t) : u.visible = true := by
  obtain ⟨-, -, ⟨-, hallows⟩ | ⟨⟨-, -, rfl⟩, -⟩⟩ := (mem_finder_iff_leadsTo hd hs hdefault).mp ht
  · exact hallows u ⟨hsu, hut⟩
  · exact absurd (hsu.trans_left hut) (hd.tree.not_holds_self hs.reaches)

/-- An outer scope finds whatever an inner one finds above one of its own matches. -/
theorem mem_finder_of_holds {m : QueryModifiers} {isFinal : Bool} {s' a : Spot} (hd : d.Orderly)
    (hs : d.root.Holds s)
    (hmode : segment.visibility = .resolve m.hiddenOnly m.allLayers isFinal)
    (hsuits : host.Suits segment.visibility) (hreach : s.Reaches s')
    (ha : a ∈ finder true host segment allowSelf s')
    (ht : t ∈ finder true host segment allowSelf s) (hat : a.Holds t) :
    a ∈ finder true host segment allowSelf s := by
  rcases Spot.reaches_iff_eq_or_holds.mp hreach with rfl | hholds
  · exact ha
  have hs' : d.root.Holds s' := hs.trans hholds
  have hs'a := reaches_of_mem_finder hd.tree hs'.reaches ha
  have hsa : s.Holds a := hholds.trans_left hs'a
  have hnot : ¬a.Reaches s := fun h ↦ hd.tree.not_holds_self hs.reaches (hsa.trans_left h)
  rw [mem_finder_iff hd hs' hmode hsuits] at ha
  rw [mem_finder_iff hd hs hmode hsuits] at ht ⊢
  obtain ⟨hadmits, hname, hway⟩ := ha
  obtain ⟨-, -, ⟨hst, hallows⟩ | ⟨⟨-, -, rfl⟩, -⟩⟩ := ht
  · refine ⟨hadmits, hname, Or.inl ⟨?_, ?_⟩⟩
    · by_cases hdirect : segment.direct = true
      · -- between a node and its child there is no room for `a`
        rw [if_pos hdirect] at hst
        obtain ⟨p, hap, htp⟩ := Spot.holds_iff_exists_parent.mp hat
        have hp : d.root.Reaches p := hs.reaches.trans (hsa.reaches.trans hap)
        obtain rfl := hd.tree.parent_unique hs.reaches hp hst htp
        exact absurd hap hnot
      · rwa [if_neg hdirect]
    · -- the way to `a` is a part of the way to `t`
      have hvisible : m.includesHidden = false → ∀ u, s.Holds u ∧ u.Reaches a → u.visible = true :=
        fun hvisible u ⟨hsu, hua⟩ ↦
          hallows.visible_of_way hvisible ⟨hsu, hua.trans hat.reaches⟩
      exact hway.elim (fun h ↦ h.2.of_way hvisible) fun h ↦ h.2.of_way hvisible
  · exact absurd hat.reaches hnot

/-- An outer scope finds whatever an inner one finds below itself, if hidden layers take part or
none is between the two. -/
theorem mem_finder_of_outer {m : QueryModifiers} {isFinal : Bool} {u : Spot} (hd : d.Orderly)
    (hu : d.root.Holds u) (hus : u.Holds s)
    (hmode : segment.visibility = .resolve m.hiddenOnly m.allLayers isFinal)
    (hsuits : host.Suits segment.visibility) (hdirect : segment.direct = false)
    (hseen : m.includesHidden = false → ∀ v, u.Holds v → v.Reaches s → v.visible = true)
    (ht : t ∈ finder true host segment false s) : t ∈ finder true host segment false u := by
  have hs : d.root.Holds s := hu.trans hus
  have hst := reaches_of_mem_finder hd.tree hs.reaches ht
  have hvisible : m.includesHidden = false → ∀ v, u.Holds v ∧ v.Reaches t → v.visible = true := by
    intro hvisible v ⟨huv, hvt⟩
    have hdefault := hmode.trans (m.resolve_eq_default hvisible)
    have hv : d.root.Reaches v := hu.reaches.trans huv.reaches
    -- `v` is above the inner scope or below it
    rcases hd.tree.reaches_or_holds hv hs.reaches hvt hst with hvs | hsv
    · exact hseen hvisible v huv hvs
    · exact visible_of_mem_finder hd hs hdefault ht hsv hvt
  obtain ⟨hadmits, hname, hway⟩ := (mem_finder_iff hd hs hmode hsuits).mp ht
  refine (mem_finder_iff hd hu hmode hsuits).mpr ⟨hadmits, hname, Or.inl ⟨?_, ?_⟩⟩
  · rw [hdirect, if_neg Bool.false_ne_true]
    exact hus.trans_left hst
  · exact hway.elim (fun h ↦ h.2.of_way hvisible) fun h ↦ h.2.of_way hvisible

end

/-! ## Segments -/

/-- Nodes that a segment may start from: nodes of the document below its root, outer ones first,
with nothing hidden between them. -/
structure Document.Nests (d : Document) (spots : List Spot) : Prop where
  /-- They are nodes below the root. -/
  holds : ∀ s ∈ spots, d.root.Holds s
  /-- Outer ones come first. -/
  outerFirst : OuterFirst spots
  /-- Nothing is hidden between them. -/
  seenWithin : SeenWithin spots

/-- Nodes that a segment of a query may start from: where hidden layers take part, some may be
hidden between the nodes. -/
structure Document.NestsFor (d : Document) (m : QueryModifiers) (spots : List Spot) : Prop where
  /-- They are nodes below the root. -/
  holds : ∀ s ∈ spots, d.root.Holds s
  /-- Outer ones come first. -/
  outerFirst : OuterFirst spots
  /-- Nothing is hidden between them, unless hidden layers take part. -/
  seenWithin : m.includesHidden = false → SeenWithin spots

section

variable {d : Document} {segment : SegmentPlan} {host : Host} {allowSelf : Bool}
  {m : QueryModifiers} {isFinal : Bool}

theorem Document.Nests.nestsFor (h : d.Nests spots) (m : QueryModifiers) : d.NestsFor m spots :=
  ⟨h.holds, h.outerFirst, fun _ ↦ h.seenWithin⟩

/-- **One segment**: what it finds, each once, nests as its scopes do. -/
theorem Document.NestsFor.step (hd : d.Orderly) (h : d.NestsFor m scopes)
    (hmode : segment.visibility = .resolve m.hiddenOnly m.allLayers isFinal)
    (hsuits : host.Suits segment.visibility) :
    d.NestsFor m (distinctSpots (scopes.flatMap (finder true host segment allowSelf))) := by
  have hscopes : ∀ s ∈ scopes, d.root.Reaches s := fun s hs ↦ (h.holds s hs).reaches
  have hbelow : ∀ s ∈ scopes, ∀ t ∈ finder true host segment allowSelf s, s.Reaches t :=
    fun s hs t ht ↦ reaches_of_mem_finder hd.tree (hscopes s hs) ht
  have hholds : ∀ t ∈ scopes.flatMap (finder true host segment allowSelf), d.root.Holds t := by
    intro t ht
    obtain ⟨s, hs, ht⟩ := List.mem_flatMap.mp ht
    exact (h.holds s hs).trans_left (hbelow s hs t ht)
  have houter : OuterFirst (scopes.flatMap (finder true host segment allowSelf)) :=
    h.outerFirst.flatMap hd.tree hscopes hbelow
      (fun s hs ↦ outerFirst_finder hd.tree (hscopes s hs))
      fun s hs s' _ hreach a ha t ht hat ↦
        mem_finder_of_holds hd (h.holds s hs) hmode hsuits hreach ha ht hat
  refine ⟨fun t ht ↦ hholds t (mem_of_firstOccurrences ht), ?_, fun hvisible ↦ ?_⟩
  · exact houter.distinctSpots hd.tree fun t ht ↦ (hholds t ht).reaches
  · have hdefault := hmode.trans (m.resolve_eq_default hvisible)
    have hseen : SeenWithin (scopes.flatMap (finder true host segment allowSelf)) :=
      (h.seenWithin hvisible).flatMap hd.tree hscopes hbelow fun s hs t ht u hsu hut ↦
        visible_of_mem_finder hd (h.holds s hs) hdefault ht hsu hut
    exact hseen.subset fun t ht ↦ mem_of_firstOccurrences ht

theorem Document.Nests.step (hd : d.Orderly) (h : d.Nests scopes)
    (hdefault : segment.visibility = .default) :
    d.Nests ((distinct ((finder true host).foundIn segment allowSelf scopes)).map Found.spot) := by
  have hmode : segment.visibility =
      .resolve ({} : QueryModifiers).hiddenOnly ({} : QueryModifiers).allLayers true := hdefault
  rw [Finder.map_spot_distinct_foundIn]
  have hstep : d.NestsFor {}
      (distinctSpots (scopes.flatMap (finder true host segment allowSelf))) :=
    (h.nestsFor {}).step hd hmode (Or.inl hdefault)
  exact ⟨hstep.holds, hstep.outerFirst, hstep.seenWithin rfl⟩

end

/-! ## Outermost nodes -/

namespace Spot.IsTree

theorem not_holds_of_mem_pruneNested {u : Spot} (ht : r.IsTree) (hs : r.Reaches s)
    (hu : r.Reaches u) (hmem : u ∈ spots) (h : s ∈ pruneNested spots) : ¬u.Holds s := by
  intro hholds
  have hne : u.same s = false := by
    rw [Bool.eq_false_iff, Ne, ht.same_iff_eq hu hs]
    rintro rfl
    exact ht.not_holds_self hs hholds
  have hnone := (List.mem_filter.mp h).2
  rw [Bool.not_eq_true', List.any_eq_false] at hnone
  refine hnone u hmem ?_
  rw [hne, (ht.isBelow_iff hs hu).mpr hholds]
  rfl

theorem mem_pruneNested_iff (ht : r.IsTree) (hspots : ∀ s ∈ spots, r.Reaches s) :
    s ∈ pruneNested spots ↔ s ∈ spots ∧ ∀ u ∈ spots, ¬u.Holds s := by
  constructor
  · intro h
    have hs : s ∈ spots := (List.mem_filter.mp h).1
    exact ⟨hs, fun u hu ↦ ht.not_holds_of_mem_pruneNested (hspots s hs) (hspots u hu) hu h⟩
  · rintro ⟨hs, hnone⟩
    refine List.mem_filter.mpr ⟨hs, ?_⟩
    rw [Bool.not_eq_true', List.any_eq_false]
    intro u hu h
    exact hnone u hu ((ht.isBelow_iff (hspots s hs) (hspots u hu)).mp (Bool.and_eq_true_iff.mp h).2)

/-- Where outer nodes come first, there is an outermost one at or in front of each node that is at
or above it. -/
theorem exists_mem_pruneNested (ht : r.IsTree) (hspots : ∀ s ∈ spots, r.Reaches s)
    (h : OuterFirst spots) {front back : List Spot} (heq : spots = front ++ s :: back) :
    ∃ u ∈ front ++ [s], u ∈ pruneNested spots ∧ u.Reaches s := by
  induction hn : front.length using Nat.strongRecOn generalizing front s back with
  | ind n ih =>
    have hs : s ∈ spots := by simp [heq]
    by_cases hkept : s ∈ pruneNested spots
    · exact ⟨s, by simp, hkept, .refl s⟩
    · -- otherwise a node holds `s`, which is in front of it
      have hholds : ∃ u ∈ spots, u.Holds s := by
        by_contra hnone
        refine hkept ((ht.mem_pruneNested_iff hspots).mpr ⟨hs, fun u hu hus ↦ ?_⟩)
        exact hnone ⟨u, hu, hus⟩
      obtain ⟨t, ht', hts⟩ := hholds
      obtain ⟨init, rest, rfl⟩ := List.append_of_mem (h front s back heq t ht' hts)
      have hlt : init.length < n := by
        rw [← hn, List.length_append, List.length_cons]
        omega
      have hsplit : spots = init ++ t :: (rest ++ s :: back) := by
        rw [heq]
        simp
      obtain ⟨u, hu, hkept, hut⟩ := ih init.length hlt hsplit rfl
      refine ⟨u, ?_, hkept, hut.trans hts.reaches⟩
      rw [List.append_assoc, List.cons_append]
      rcases List.mem_append.mp hu with hu | hu
      · exact List.mem_append_left _ hu
      · obtain rfl := List.mem_singleton.mp hu
        simp

end Spot.IsTree

section

variable {d : Document} {segment : SegmentPlan}

theorem Document.Nests.mem_finder {host : Host} (hd : d.Orderly) (h : d.Nests scopes)
    (hdefault : segment.visibility = .default) (hdirect : segment.direct = false) {u : Spot}
    (hu : u ∈ scopes) (hs : s ∈ scopes) (hus : u.Holds s)
    (ht : t ∈ finder true host segment false s) : t ∈ finder true host segment false u := by
  have hmode : segment.visibility =
      .resolve ({} : QueryModifiers).hiddenOnly ({} : QueryModifiers).allLayers true := hdefault
  exact mem_finder_of_outer hd (h.holds u hu) hus hmode (Or.inl hdefault) hdirect
    (fun _ v huv hvs ↦ h.seenWithin u hu s hs hus v huv hvs) ht

/-- **Inner scopes add nothing**: a segment finds the same, in the same order and with the same
paths, from all nodes of a list and from the outermost ones. -/
theorem Document.Nests.distinct_pruneNested (hd : d.Orderly) (h : d.Nests scopes) (host : Host)
    (hdefault : segment.visibility = .default) (hdirect : segment.direct = false) :
    distinct ((finder true host).foundIn segment false (pruneNested scopes)) =
      distinct ((finder true host).foundIn segment false scopes) := by
  have hscopes : ∀ s ∈ scopes, d.root.Reaches s := fun s hs ↦ (h.holds s hs).reaches
  refine firstOccurrences_flatMap_filter fun front s back heq hpruned f hf ↦ Or.inr ?_
  obtain ⟨t, ht, rfl⟩ := List.mem_map.mp hf
  have hs : s ∈ scopes := by simp [heq]
  -- an outermost node in front of the one that is left out finds the match as well
  obtain ⟨u, hu, hkept, hus⟩ := hd.tree.exists_mem_pruneNested hscopes h.outerFirst heq
  have hne : u ≠ s := by
    rintro rfl
    have hkeep := (List.mem_filter.mp hkept).2
    rw [hpruned] at hkeep
    cases hkeep
  have hfront : u ∈ front := by
    rcases List.mem_append.mp hu with hu | hu
    · exact hu
    · exact absurd (List.mem_singleton.mp hu) hne
  have hholds := (Spot.reaches_iff_eq_or_holds.mp hus).resolve_left (Ne.symm hne)
  have hmem := h.mem_finder hd hdefault hdirect (List.mem_filter.mp hkept).1 hs hholds ht
  refine List.mem_map.mpr ⟨⟨t, t.pathFrom u⟩, List.mem_flatMap.mpr ⟨u, ?_, ?_⟩, rfl⟩
  · exact List.mem_filter.mpr ⟨hfront, (List.mem_filter.mp hkept).2⟩
  · exact List.mem_map.mpr ⟨t, hmem, rfl⟩

end

/-! ## Starting scopes -/

section

variable {host : Host} {childSearch : Bool}

theorem nests_of_not_holds {d : Document} (hholds : ∀ s ∈ spots, d.root.Holds s)
    (h : ∀ s ∈ spots, ∀ t ∈ spots, ¬s.Holds t) : d.Nests spots where
  holds := hholds
  outerFirst := by
    rintro before t after rfl s hs hst
    exact absurd hst (h s hs t (by simp))
  seenWithin := fun s hs t ht hst ↦ absurd hst (h s hs t ht)

/-- Starting scopes are the current page, or what pruning keeps of some nodes, each taken once. -/
theorem Host.scopes_eq_or (host : Host) (childSearch : Bool) :
    host.scopes childSearch = [host.currentPage] ∨
      ∃ spots, host.scopes childSearch = pruneNested (distinctSpots spots) := by
  rw [scopes, initialScopes]
  generalize host.selection.flatMap
    (fun s ↦ s :: (if childSearch then [] else s.anchor?.toList)) = wanted
  split
  · exact Or.inl rfl
  · dsimp only
    split
    · exact Or.inl rfl
    · exact Or.inr ⟨_, rfl⟩

theorem Host.Orderly.not_holds_scopes (hh : host.Orderly) (hs : s ∈ host.scopes childSearch)
    (ht : t ∈ host.scopes childSearch) : ¬s.Holds t := by
  have hsHas := hh.labelled.has_of_mem_scopes hs
  have htHas := hh.labelled.has_of_mem_scopes ht
  rcases host.scopes_eq_or childSearch with hscopes | ⟨spots, hscopes⟩
  · rw [hscopes, List.mem_singleton] at hs ht
    rw [hs, ht]
    exact hh.document.tree.not_holds_self hh.currentPage
  · rw [hscopes] at hs ht
    exact hh.document.tree.not_holds_of_mem_pruneNested htHas hsHas (List.mem_filter.mp hs).1 ht

theorem Host.Orderly.nests_scopes (hh : host.Orderly) (hpage : host.currentPage.kind = .page)
    (hselection : host.document.root ∉ host.selection) :
    host.document.Nests (host.scopes childSearch) :=
  nests_of_not_holds (fun _ hs ↦ hh.holds_of_mem_scopes hpage hselection hs)
    fun _ hs _ ht ↦ hh.not_holds_scopes hs ht

end

end SceneSearch
