import SceneSearch.Proofs.Search.Hidden
import SceneSearch.Proofs.Search.Nodes

/-!
# Picks leave matches out

A rank or `--f` only ever leaves matches out, against the same query without them:
`QueryPlan.unpicked` is the plan in which every segment keeps all its matches. This needs an
argument since a pick decides on the scopes of the segments after it. What a segment finds grows
with its scopes, so the nodes that a plan finds are always among those of the plan without picks,
segment by segment: `Finder.yields_segmentsAnswer_nodes`.

A query with `--f` goes below a scope node by node where the other one makes a bulk lookup. A walk
without hidden parts comes to fewer nodes than a lookup leaves visible, since a look up ends at a
page: `finder_subset_unpicked`. That is enough here, and it holds below every scope.
-/

namespace SceneSearch

open Evaluation

/-! ## Plans without picks -/

/-- The segment with all its matches kept. -/
def SegmentPlan.unpicked (segment : SegmentPlan) : SegmentPlan :=
  { segment with pick := none, stopAtFirst := false }

namespace QueryPlan

/-- The plan with all matches kept, of every segment and at the end. -/
def unpicked (plan : QueryPlan) : QueryPlan :=
  { plan with segments := plan.segments.map SegmentPlan.unpicked, finalPick := none }

variable {m : QueryModifiers} {isFirst : Bool} {segments : List SegmentPlan} {plan : QueryPlan}

theorem Arranged.unpicked (h : Arranged m isFirst segments) :
    Arranged { m with firstOverall := false } isFirst (segments.map SegmentPlan.unpicked) := by
  induction segments generalizing isFirst with
  | nil => trivial
  | cons segment rest ih =>
    obtain ⟨hplace, hmode, -, hrest⟩ := h
    refine ⟨hplace, ?_, rfl, ih hrest⟩
    rw [List.isEmpty_map]
    exact hmode

private theorem pick_of_mem_unpicked : ∀ segment ∈ plan.unpicked.segments, segment.pick = none := by
  intro segment hsegment
  obtain ⟨_, -, rfl⟩ := List.mem_map.mp hsegment
  rfl

theorem reshapes_unpicked (plan : QueryPlan) :
    plan.Reshapes SegmentPlan.unpicked plan.unpicked := ⟨rfl, fun _ ↦ rfl, fun _ ↦ rfl⟩

end QueryPlan

/-! ## One scope -/

section

variable {d : Document} {r s t : Spot} {segment : SegmentPlan} {matcher : NameMatcher} {host : Host}
  {allowSelf : Bool} {kinds : List NodeKind}

/-- A look up from a node finds nothing hidden if nothing on the whole way up to the scope is. -/
theorem Spot.IsTree.isEffectivelyVisible_of_visible (ht : r.IsTree) (hs : r.Reaches s)
    (hst : s.Reaches t) (hvisible : ∀ u, s.Holds u → u.Reaches t → u.visible = true) :
    t.isEffectivelyVisible (some s) = true := by
  induction hst with
  | refl => exact isEffectivelyVisible_self s
  | @tail p t hsp hpt ih =>
    have hp := ih fun u hsu hup ↦ hvisible u hsu (hup.child hpt)
    cases hkind : t.kind.isRootLike with
    | true => simp [isEffectivelyVisible, belowScope, chain, hkind]
    | false =>
      rw [isEffectivelyVisible, ht.belowScope_of_mem_children hs hsp hpt hkind, List.all_cons,
        Bool.and_eq_true]
      exact ⟨hvisible t (Relation.TransGen.tail' hsp hpt) (.refl t), hp⟩

private theorem walkMatches_subset_lookup (ht : r.IsTree) (hs : r.Reaches s)
    (hdefault : segment.visibility = .default) (hkinds : segment.symbol.poolKinds? = some kinds) :
    walkMatches segment matcher s host ⊆
      (host.lookup s kinds).filter fun t ↦ matcher.accepts t.name := by
  intro t h
  rw [walkMatches, hdefault] at h
  obtain ⟨hwalk, hkeep⟩ := List.mem_filter.mp h
  obtain ⟨hadmits, hname⟩ := Bool.and_eq_true_iff.mp (Bool.and_eq_true_iff.mp hkeep).2
  have hseen : t ∈ s.descendants .everything (!·.visible) := by
    rw [← ht.descendants_exposure hs host.skipsInstanceChildren]
    exact hwalk
  obtain ⟨hholds, hvisible⟩ := (ht.mem_descendants_visible_iff hs).mp hseen
  rw [TypeSymbol.admits_eq_contains hkinds] at hadmits
  have hall : t ∈ s.descendants host.shown fun _ ↦ false :=
    ht.descendants_subset hs (fun _ _ ↦ rfl) hwalk
  refine List.mem_filter.mpr ⟨List.mem_filter.mpr ⟨List.mem_filter.mpr ⟨hall, hadmits⟩, ?_⟩, hname⟩
  exact ht.isEffectivelyVisible_of_visible hs hholds.reaches hvisible

theorem bulkKinds?_eq_some_iff : bulkKinds? true segment = some kinds ↔
    segment.visibility = .default ∧ segment.stopAtFirst = false ∧
      segment.symbol.poolKinds? = some kinds := by
  rw [bulkKinds?, VisibilityMode.prunesHidden]
  cases segment.stopAtFirst <;> simp

private theorem matchesBelow_subset_unpicked (ht : r.IsTree) (hs : r.Reaches s) :
    matchesBelow segment matcher s true host ⊆
      matchesBelow segment.unpicked matcher s true host := by
  rw [matchesBelow, matchesBelow]
  cases hdirect : segment.direct with
  | true =>
    have hdirect' : segment.unpicked.direct = true := hdirect
    rw [hdirect', if_pos rfl, if_pos rfl]
    exact List.Subset.refl (childMatches segment matcher s host)
  | false =>
    have hdirect' : segment.unpicked.direct = false := hdirect
    rw [hdirect', if_neg Bool.false_ne_true, if_neg Bool.false_ne_true]
    -- if the pick makes no bulk lookup, there may be one without it
    cases hkinds : bulkKinds? true segment with
    | some kinds =>
      obtain ⟨hdefault, -, hpool⟩ := bulkKinds?_eq_some_iff.mp hkinds
      have hkinds' : bulkKinds? true segment.unpicked = some kinds :=
        bulkKinds?_eq_some_iff.mpr ⟨hdefault, rfl, hpool⟩
      rw [hkinds']
      exact List.Subset.refl _
    | none =>
      cases hkinds' : bulkKinds? true segment.unpicked with
      | some kinds =>
        obtain ⟨hdefault, -, hpool⟩ := bulkKinds?_eq_some_iff.mp hkinds'
        exact walkMatches_subset_lookup ht hs hdefault hpool
      | none => exact List.Subset.refl (walkMatches segment matcher s host)

/-- **One scope**: what a segment finds it finds without its pick. -/
theorem finder_subset_unpicked (ht : r.IsTree) (hs : r.Reaches s) :
    finder true host segment allowSelf s ⊆ finder true host segment.unpicked allowSelf s := by
  intro t h
  rcases List.mem_append.mp h with hown | hbelow
  · exact List.mem_append_left _ hown
  · exact List.mem_append_right _ (matchesBelow_subset_unpicked ht hs hbelow)

end

theorem Host.Labelled.has_of_start? {host : Host} {plan : QueryPlan} {start : QueryPlan.Start}
    (hh : host.Labelled)
    (h : plan.start? host.document.pages (host.scopes plan.childSearch) = some start) :
    (∀ s ∈ start.scopes, host.document.Has s) ∧ start.found.map Found.spot ⊆ start.scopes := by
  rcases QueryPlan.of_start? h with ⟨-, page, hpage, rfl⟩ | ⟨-, rfl⟩
  · refine ⟨fun s hs ↦ ?_, List.Subset.refl _⟩
    rw [List.mem_singleton.mp hs]
    exact (Document.holds_of_mem_pages hpage).reaches
  · exact ⟨fun s hs ↦ hh.has_of_mem_scopes hs, List.nil_subset _⟩

/-! ## Segments -/

namespace Evaluation

/-- Lists of one item at most are not longer together than there are of them. -/
theorem yields_length_flatten_mapM {ε α β : Type} {f : β → Except ε (List α)} {items : List β}
    (hf : ∀ b ∈ items, Yields (f b) fun a ↦ a.length ≤ 1) :
    Yields (items.mapM f) fun results ↦ results.flatten.length ≤ items.length := by
  induction items with
  | nil => exact .of_ok (Nat.le_refl 0)
  | cons b rest ih =>
    have hrest := ih fun c hc ↦ hf c (List.mem_cons_of_mem b hc)
    rw [List.mapM_cons]
    refine (hf b List.mem_cons_self).bind fun a ha ↦ hrest.bind fun as has ↦ .of_ok ?_
    rw [List.flatten_cons, List.length_append, List.length_cons]
    omega

/-- No node is among the matches twice. -/
def Unrepeated (found : List Found) : Prop := (found.map fun f ↦ f.spot.place).Nodup

theorem Unrepeated.sublist {found final : List Found} (h : Unrepeated found)
    (hsub : final.Sublist found) : Unrepeated final :=
  List.Nodup.sublist (hsub.map _) h

theorem unrepeated_distinct (found : List Found) : Unrepeated (distinct found) :=
  nodup_keys_firstOccurrences

namespace Finder

variable {find : Finder} {segment : SegmentPlan} {segments init : List SegmentPlan}
  {scopes pages : List Spot} {found : List Found} {allowSelf childSearch : Bool}
  {plan : QueryPlan} {last : SegmentPlan}

theorem yields_length_choose (pick : RankPick) (spots : List Spot) (scope : Option Spot)
    (path : Spot → String) :
    Yields
      ((choose pick spots scope).map fun chosen ↦
        chosen.toList.map fun s ↦ (⟨s, path s⟩ : Found))
      fun found ↦ found.length ≤ 1 := by
  refine Yields.map (P := fun _ ↦ True) (fun _ _ ↦ trivial) fun chosen _ ↦ ?_
  cases chosen <;> simp

theorem unrepeated_of_length_le_one (h : found.length ≤ 1) : Unrepeated found := by
  match found, h with
  | [], _ => exact List.nodup_nil
  | [f], _ => exact List.nodup_singleton _

theorem yields_unrepeated_segmentAnswer (find : Finder) (segment : SegmentPlan)
    (allowSelf : Bool) (scopes : List Spot) :
    Yields (find.segmentAnswer segment allowSelf scopes) Unrepeated := by
  rw [segmentAnswer]
  split
  · split
    · exact fun found h ↦ unrepeated_of_length_le_one (yields_length_choose _ _ _ _ found h)
    · exact Yields.map (P := fun _ ↦ True) (fun _ _ ↦ trivial) fun _ _ ↦ unrepeated_distinct _
  · refine .of_ok ?_
    split
    · exact unrepeated_of_length_le_one (List.length_take_le 1 _)
    · exact unrepeated_distinct _

private theorem yields_length_segmentAnswer (hpick : segment.pick = none)
    (hstop : segment.stopAtFirst = true) :
    Yields (find.segmentAnswer segment allowSelf scopes) fun found ↦ found.length ≤ 1 := by
  rw [segmentAnswer, hpick, hstop]
  exact .of_ok (List.length_take_le 1 _)

theorem yields_length_pickPerScope {n : Int} (hpick : segment.pick = some ⟨.perScope, n⟩) :
    Yields (find.segmentAnswer segment allowSelf scopes)
      fun found ↦ found.length ≤ scopes.length := by
  rw [segmentAnswer, hpick]
  refine (yields_length_flatten_mapM fun scope _ ↦ yields_length_choose _ _ _ _).map ?_
  exact fun picked h ↦ Nat.le_trans (firstOccurrences_sublist [] _).length_le h

/-- What holds of nothing, and of all that a segment keeps, holds of all that segments find. -/
theorem yields_segmentsAnswer {P : List Found → Prop} (hnil : P []) (hfound : P found)
    (hsegments : ∀ segment ∈ segments, ∀ allowSelf scopes,
      Yields (find.segmentAnswer segment allowSelf scopes) P) :
    Yields (find.segmentsAnswer childSearch found scopes segments) P := by
  induction segments generalizing found scopes with
  | nil => exact .of_ok hfound
  | cons segment rest ih =>
    rw [segmentsAnswer]
    refine (hsegments segment List.mem_cons_self _ _).bind fun found' hfound' ↦ ?_
    split
    · exact .of_ok hnil
    · exact ih hfound' fun segment h ↦ hsegments segment (List.mem_cons_of_mem _ h)

/-- **What segments find is found without their picks**, from the same scopes or from more. -/
theorem yields_segmentsAnswer_nodes {d : Document} (host : Host) {m : QueryModifiers}
    {isFirst : Bool} {wide : List Spot} (hd : d.Labelled)
    (harranged : QueryPlan.Arranged m isFirst segments) (hwide : ∀ s ∈ wide, d.Has s)
    (hscopes : scopes ⊆ wide) (hfound : segments = [] → found.map Found.spot ⊆ wide) :
    Yields ((finder true host).segmentsAnswer childSearch found scopes segments) fun result ↦
      result.map Found.spot ⊆ (finder true host).nodes (isFirst && !childSearch) wide
        (segments.map SegmentPlan.unpicked) := by
  induction segments generalizing found scopes wide isFirst with
  | nil => exact .of_ok (hfound rfl)
  | cons segment rest ih =>
    obtain ⟨hplace, -, -, hrest⟩ := harranged
    rw [segmentsAnswer, hplace]
    have hkept := yields_segmentAnswer (finder true host) segment (isFirst && !childSearch) scopes
    refine hkept.bind fun found' hfound' ↦ ?_
    split
    · exact .of_ok (List.nil_subset _)
    · have hall : ∀ t ∈ wide.flatMap (finder true host segment.unpicked (isFirst && !childSearch)),
          d.Has t := fun t h ↦ reaches_of_mem_flatMap hd.tree hwide h
      -- the scopes of the rest are among those that the wide scopes lead to
      have hmore : found'.map Found.spot ⊆ distinctSpots
          (wide.flatMap (finder true host segment.unpicked (isFirst && !childSearch))) := by
        intro t ht
        obtain ⟨f, hf, rfl⟩ := List.mem_map.mp ht
        obtain ⟨s, hs, hst⟩ := List.mem_flatMap.mp (hfound' f hf)
        rw [mem_distinctSpots_iff hd.tree hall]
        exact List.mem_flatMap.mpr
          ⟨s, hscopes hs, finder_subset_unpicked hd.tree (hwide s (hscopes hs)) hst⟩
      exact ih hrest (fun t ht ↦ hall t (mem_of_firstOccurrences ht)) hmore fun _ ↦ hmore

theorem segmentsAnswer_singleton : find.segmentsAnswer childSearch found scopes [last] =
    find.segmentAnswer last (last.isFirst && !childSearch) scopes := by
  rw [segmentsAnswer]
  cases find.segmentAnswer last (last.isFirst && !childSearch) scopes with
  | error fault => rfl
  | ok found' => cases found' <;> rfl

theorem segmentsAnswer_append_singleton
    (h : init = [] → found ≠ [] ∧ found.map Found.spot = scopes) :
    find.segmentsAnswer childSearch found scopes (init ++ [last]) =
      find.segmentsAnswer childSearch found scopes init >>= fun before ↦
        if before.isEmpty then pure []
        else find.segmentAnswer last (last.isFirst && !childSearch) (before.map Found.spot) := by
  induction init generalizing found scopes with
  | nil =>
    obtain ⟨hne, rfl⟩ := h rfl
    rw [List.nil_append, segmentsAnswer_singleton, segmentsAnswer]
    change _ = if found.isEmpty then _ else _
    rw [if_neg (by simpa using hne)]
  | cons segment rest ih =>
    rw [List.cons_append, segmentsAnswer, segmentsAnswer]
    cases find.segmentAnswer segment (segment.isFirst && !childSearch) scopes with
    | error fault => rfl
    | ok found' =>
      change (if found'.isEmpty then _ else _) = (if found'.isEmpty then _ else _) >>= _
      cases found' with
      | nil => rfl
      | cons f more => exact ih fun _ ↦ ⟨List.cons_ne_nil f more, rfl⟩

/-! ## Plans -/

/-- A choice at the end leaves one result at most, if no node is repeated. -/
theorem yields_length_finish (hpick : plan.finalPick.isSome) (hfound : Unrepeated found) :
    Yields (finish plan found) fun final ↦ final.length ≤ 1 := by
  obtain ⟨pick, hpick⟩ := Option.isSome_iff_exists.mp hpick
  rw [finish, hpick]
  dsimp only
  split
  · exact .of_ok (Nat.zero_le 1)
  · rw [pickFinal]
    refine Yields.bind (P := fun _ ↦ True) (fun _ _ ↦ trivial) fun chosen _ ↦ .of_ok ?_
    cases chosen with
    | none => simp
    | some s =>
      have hselectable : Unrepeated (found.filter (·.spot.kind ≠ .page)) :=
        hfound.sublist List.filter_sublist
      have hcount := List.nodup_iff_count_le_one.mp hselectable s.place
      rw [List.count_eq_countP, List.countP_map, List.countP_eq_length_filter] at hcount
      exact hcount

/-- A property of lists that a shorter list keeps holds of all that a plan finds, if it holds of
what a plan starts with and of what segments keep. -/
theorem yields_answer {P : List Found → Prop} (hnil : P []) (hpage : ∀ f, P [f])
    (hsublist : ∀ found final, final.Sublist found → P found → P final)
    (hsegments : ∀ segment ∈ plan.segments, ∀ allowSelf scopes,
      Yields (find.segmentAnswer segment allowSelf scopes) P) :
    Yields (find.answer pages scopes plan) fun r ↦ P r.1 := by
  rw [answer_eq]
  cases hstart : plan.start? pages scopes with
  | none => exact .of_ok hnil
  | some start =>
    have hfound : P start.found := by
      rcases QueryPlan.of_start? hstart with ⟨-, page, -, rfl⟩ | ⟨-, rfl⟩
      · exact hpage _
      · exact hnil
    have hkept : Yields (find.segmentsAnswer plan.childSearch start.found start.scopes plan.steps)
        P :=
      yields_segmentsAnswer hnil hfound fun segment h ↦
        hsegments segment (QueryPlan.mem_segments_of_mem_steps h)
    exact hkept.bind fun found hkept ↦ (yields_finish_sublist plan found).bind fun final hfinal ↦
      .of_ok (hsublist found final hfinal hkept)

private theorem yields_unrepeated_answer (find : Finder) (pages scopes : List Spot)
    (plan : QueryPlan) :
    Yields (find.answer pages scopes plan) fun r ↦ Unrepeated r.1 :=
  yields_answer List.nodup_nil (fun _ ↦ List.nodup_singleton _) (fun _ _ hsub h ↦ h.sublist hsub)
    fun segment _ ↦ yields_unrepeated_segmentAnswer find segment

private theorem yields_length_answer_of_stopAtFirst
    (h : ∀ segment ∈ plan.segments, segment.pick = none ∧ segment.stopAtFirst = true) :
    Yields (find.answer pages scopes plan) fun r ↦ r.1.length ≤ 1 :=
  yields_answer (P := fun found ↦ found.length ≤ 1) (Nat.zero_le 1) (fun _ ↦ Nat.le_refl 1)
    (fun _ _ hsub h ↦ Nat.le_trans hsub.length_le h) fun segment hmem _ _ ↦
      yields_length_segmentAnswer (h segment hmem).1 (h segment hmem).2

theorem yields_unrepeated_segmentsAnswer {start : QueryPlan.Start}
    (hstart : plan.start? pages scopes = some start) :
    Yields (find.segmentsAnswer plan.childSearch start.found start.scopes plan.steps)
      Unrepeated := by
  refine yields_segmentsAnswer List.nodup_nil ?_ fun segment _ ↦
    yields_unrepeated_segmentAnswer find segment
  rcases QueryPlan.of_start? hstart with ⟨-, page, -, rfl⟩ | ⟨-, rfl⟩
  · exact List.nodup_singleton _
  · exact List.nodup_nil

private theorem yields_length_answer_of_finalPick (h : plan.finalPick.isSome) :
    Yields (find.answer pages scopes plan) fun r ↦ r.1.length ≤ 1 := by
  rw [answer_eq]
  cases hstart : plan.start? pages scopes with
  | none => exact .of_ok (Nat.zero_le 1)
  | some start =>
    exact (yields_unrepeated_segmentsAnswer hstart).bind fun found hkept ↦
      (yields_length_finish h hkept).bind fun final hfinal ↦ .of_ok hfinal

/-- **What a plan finds it finds without its picks.** -/
theorem yields_answer_planNodes {host : Host} {m : QueryModifiers} (hh : host.Labelled)
    (harranged : QueryPlan.Arranged m true plan.segments) :
    Yields (host.answer true plan) fun r ↦
      r.1.map Found.spot ⊆ (host.planNodes plan.unpicked).1 := by
  have hscopes : host.scopes plan.unpicked.childSearch = host.scopes plan.childSearch := rfl
  have hreshapes := plan.reshapes_unpicked
  rw [Host.answer, answer_eq, Host.planNodes, planNodes_eq, hreshapes.steps_eq, hscopes,
    hreshapes.start?_eq, hreshapes.hasPageDirective_eq]
  cases hstart : plan.start? host.document.pages (host.scopes plan.childSearch) with
  | none => exact .of_ok (List.nil_subset _)
  | some start =>
    obtain ⟨hhas, hfound⟩ := hh.has_of_start? hstart
    have hkept : Yields
        ((finder true host).segmentsAnswer plan.childSearch start.found start.scopes plan.steps)
        fun result ↦ result.map Found.spot ⊆ (finder true host).nodes
          (!plan.hasPageDirective && !plan.childSearch) start.scopes
            (plan.steps.map SegmentPlan.unpicked) :=
      yields_segmentsAnswer_nodes host hh.document harranged.steps hhas (List.Subset.refl _)
        fun _ ↦ hfound
    exact hkept.bind fun found hkept ↦ (yields_finish plan found).bind fun final hfinal ↦
      .of_ok (List.Subset.trans (List.map_subset _ hfinal) hkept)

end Finder

end Evaluation

/-! ## Scopes of the last segment -/

/-- The plan without its last segment, and without a choice at its end. -/
def QueryPlan.withoutLast (plan : QueryPlan) : QueryPlan :=
  { plan with segments := plan.segments.dropLast, finalPick := none }

namespace QueryPlan

variable {plan : QueryPlan}

theorem exists_cons_cons {α : Type} {items : List α} (h : 1 < items.length) :
    ∃ first second rest, items = first :: second :: rest := by
  rcases items with _ | ⟨first, _ | ⟨second, rest⟩⟩
  · cases h
  · exact absurd h (Nat.lt_irrefl 1)
  · exact ⟨first, second, rest, rfl⟩

theorem hasPageDirective_withoutLast (h : 1 < plan.segments.length) :
    plan.withoutLast.hasPageDirective = plan.hasPageDirective := by
  obtain ⟨first, second, rest, hsegments⟩ := exists_cons_cons h
  rw [hasPageDirective, hasPageDirective, withoutLast, hsegments]
  rfl

private theorem steps_withoutLast (h : 1 < plan.segments.length) :
    plan.withoutLast.steps = plan.steps.dropLast := by
  rw [steps, steps, hasPageDirective_withoutLast h, withoutLast]
  split
  · exact List.tail_dropLast
  · rfl

private theorem start?_withoutLast (h : 1 < plan.segments.length) (pages scopes : List Spot) :
    plan.withoutLast.start? pages scopes = plan.start? pages scopes := by
  obtain ⟨first, second, rest, hsegments⟩ := exists_cons_cons h
  rw [start?, start?, hasPageDirective_withoutLast h, pageAmong?, pageAmong?, withoutLast,
    hsegments]
  rfl

/-- The last of several segments is the last step, and the only one just behind a directive. -/
theorem exists_steps_eq_append {last : SegmentPlan} (h : plan.segments.getLast? = some last)
    (hlength : 1 < plan.segments.length) :
    ∃ init, plan.steps = init ++ [last] ∧ (init = [] → plan.hasPageDirective = true) := by
  obtain ⟨init, hsegments⟩ := List.getLast?_eq_some_iff.mp h
  rw [hsegments, List.length_append, List.length_singleton] at hlength
  rw [steps, hsegments]
  split
  · rename_i hdirective
    rcases init with _ | ⟨directive, rest⟩
    · exact absurd hlength (Nat.lt_irrefl 1)
    · exact ⟨rest, rfl, fun _ ↦ hdirective⟩
  · refine ⟨init, rfl, ?_⟩
    rintro rfl
    exact absurd hlength (Nat.lt_irrefl 1)

end QueryPlan

namespace Evaluation.Finder

variable {find : Finder} {pages scopes : List Spot} {plan : QueryPlan} {last : SegmentPlan}
  {n : Int}

theorem yields_length_answer_of_singleton (hsegments : plan.segments = [last])
    (hpick : last.pick = some ⟨.perScope, n⟩) (hscopes : scopes ≠ []) :
    Yields (find.answer pages scopes plan) fun r ↦ r.1.length ≤ scopes.length := by
  have hpositive : 0 < scopes.length := List.length_pos_iff.mpr hscopes
  rw [answer_eq]
  cases hstart : plan.start? pages scopes with
  | none => exact .of_ok (Nat.zero_le _)
  | some start =>
    have hkept : Yields (find.segmentsAnswer plan.childSearch start.found start.scopes plan.steps)
        fun found ↦ found.length ≤ scopes.length := by
      rcases QueryPlan.of_start? hstart with ⟨hdirective, page, -, rfl⟩ | ⟨hdirective, rfl⟩
      · -- the segment names the page, which is found
        rw [QueryPlan.steps, if_pos hdirective, hsegments]
        exact .of_ok hpositive
      · rw [QueryPlan.steps, hdirective, if_neg Bool.false_ne_true, hsegments,
          segmentsAnswer_singleton]
        exact yields_length_pickPerScope hpick
    exact hkept.bind fun found hkept ↦ (yields_finish_sublist plan found).bind fun final hfinal ↦
      .of_ok (Nat.le_trans hfinal.length_le hkept)

/-- A pick in each scope at the end of several segments finds no more than the segments before
it. -/
theorem yields_length_answer_of_withoutLast (hlast : plan.segments.getLast? = some last)
    (hpick : last.pick = some ⟨.perScope, n⟩) (hlength : 1 < plan.segments.length) :
    Yields (find.answer pages scopes plan) fun r ↦
      ∃ before, find.answer pages scopes plan.withoutLast = .ok before ∧
        r.1.length ≤ before.1.length := by
  obtain ⟨init, hsteps, hinit⟩ := QueryPlan.exists_steps_eq_append hlast hlength
  have hfront : plan.withoutLast.steps = init := by
    rw [QueryPlan.steps_withoutLast hlength, hsteps, List.dropLast_concat]
  rw [answer_eq, answer_eq, QueryPlan.start?_withoutLast hlength, hfront, hsteps]
  cases hstart : plan.start? pages scopes with
  | none => exact .of_ok ⟨_, rfl, Nat.le_refl _⟩
  | some start =>
    have hfound : init = [] → start.found ≠ [] ∧ start.found.map Found.spot = start.scopes := by
      intro hnil
      rcases QueryPlan.of_start? hstart with ⟨-, page, -, rfl⟩ | ⟨hdirective, -⟩
      · exact ⟨List.cons_ne_nil _ _, rfl⟩
      · rw [hinit hnil] at hdirective
        cases hdirective
    dsimp only
    rw [segmentsAnswer_append_singleton hfound]
    have hcs : plan.withoutLast.childSearch = plan.childSearch := rfl
    rw [hcs]
    cases hbefore : find.segmentsAnswer plan.childSearch start.found start.scopes init with
    | error fault => exact nofun
    | ok before =>
      have hkept : Yields (if before.isEmpty then pure []
          else find.segmentAnswer last (last.isFirst && !plan.childSearch)
            (before.map Found.spot)) fun found ↦ found.length ≤ before.length := by
        split
        · exact .of_ok (Nat.zero_le _)
        · rw [← List.length_map (f := Found.spot)]
          exact yields_length_pickPerScope hpick
      refine hkept.bind fun found hkept ↦ (yields_finish_sublist plan found).bind
        fun final hfinal ↦ .of_ok ⟨(before, start.page), rfl, ?_⟩
      exact Nat.le_trans hfinal.length_le hkept

end Evaluation.Finder

/-! ## Searches -/

namespace QueryPlan

variable {plan : QueryPlan} {query : String}

private theorem pick_of_mem_segmentsOf {m : QueryModifiers} (hfirst : m.firstOverall = true)
    {isFirst : Bool} {placed : List PlacedPiece} :
    ∀ segment ∈ segmentsOf m isFirst placed, segment.pick = none ∧ segment.stopAtFirst = true := by
  induction placed generalizing isFirst with
  | nil => simp [segmentsOf]
  | cons p rest ih =>
    intro segment hsegment
    rcases List.mem_cons.mp hsegment with rfl | hsegment
    · exact ⟨by rw [segmentOf, pickFor, if_pos hfirst], hfirst⟩
    · exact ih segment hsegment

private theorem pick_of_firstOverall (h : parseQuery query = .ok plan)
    (hfirst : plan.modifiers.firstOverall = true) :
    ∀ segment ∈ plan.segments, segment.pick = none ∧ segment.stopAtFirst = true := by
  obtain ⟨pieces, -, rfl⟩ := exists_ofPieces h
  exact pick_of_mem_segmentsOf hfirst

/-- An index at the end of a query is a choice at the end of its plan, unless `--f` overrides it. -/
theorem finalPick_isSome (h : parseQuery query = .ok plan) (hindex : plan.modifiers.index.isSome)
    (hfirst : plan.modifiers.firstOverall = false) (hne : plan.isEmpty = false) :
    plan.finalPick.isSome := by
  obtain ⟨pieces, -, rfl⟩ := exists_ofPieces h
  obtain ⟨n, hn⟩ := Option.isSome_iff_exists.mp hindex
  have hn' : (modifiersOf pieces).index = some n := hn
  have hfirst' : (modifiersOf pieces).firstOverall = false := hfirst
  rw [isEmpty] at hne
  simp only [ofPieces, hn', hfirst', Bool.false_or] at hne ⊢
  rw [hne]
  rfl

end QueryPlan

namespace Host

/-- What a plan comes to on a host as it is shown to a search, with the settings of a new engine. -/
def evaluated (host : Host) (plan : QueryPlan) : Except SearchFault Response :=
  (plan.trace (host.exposed plan.modifiers.includesHidden) Engine.new.settings).result

/-- The scopes of the last segment of a plan: what the segments before it find, or the starting
scopes if there are none. -/
def lastScopes (host : Host) (plan : QueryPlan) : Except SearchFault (List Spot) :=
  if plan.segments.length ≤ 1 then .ok (host.scopes plan.childSearch)
  else (host.evaluated plan.withoutLast).map Response.nodes

theorem scopes_ne_nil (host : Host) (childSearch : Bool) : host.scopes childSearch ≠ [] := by
  rw [scopes, initialScopes]
  by_cases hselection : host.selection.isEmpty = true
  · rw [if_pos hselection]
    exact List.cons_ne_nil _ _
  · rw [if_neg hselection]
    dsimp only
    generalize pruneNested _ = pruned
    cases pruned with
    | nil => exact List.cons_ne_nil _ _
    | cons s rest => exact List.cons_ne_nil s rest

variable {host : Host} {plan : QueryPlan}

theorem Labelled.evaluated_eq (hh : host.Labelled) (plan : QueryPlan) :
    host.evaluated plan =
      ((host.exposed plan.modifiers.includesHidden).answer true plan).map fun r ↦
        { results := r.1, page := r.2 } :=
  QueryPlan.result_trace (hh.exposed _) rfl plan

theorem Labelled.exists_answer_unpicked {m : QueryModifiers} {r : List Found × Option Spot}
    (hh : host.Labelled) (harranged : QueryPlan.Arranged m true plan.segments)
    (hanswer : host.answer true plan = .ok r) :
    ∃ all, host.answer true plan.unpicked = .ok all ∧
      r.1.map Found.spot ⊆ all.1.map Found.spot := by
  cases hempty : plan.isEmpty with
  | true =>
    obtain rfl := Except.ok.inj ((answer_of_isEmpty hempty).symm.trans hanswer)
    exact ⟨_, answer_of_isEmpty (plan.reshapes_unpicked.isEmpty_eq.trans hempty), List.nil_subset _⟩
  | false =>
    obtain ⟨found, hfound, hnodes⟩ := (finder true host).exists_answer_of_arranged
      host.document.pages (host.scopes plan.childSearch) harranged.unpicked rfl rfl
      QueryPlan.pick_of_mem_unpicked (plan.reshapes_unpicked.isEmpty_eq.trans hempty)
    refine ⟨_, hfound, ?_⟩
    rw [hnodes]
    exact Finder.yields_answer_planNodes hh harranged r hanswer

/-- A pick in each scope at the end of a plan finds no more than its segment has scopes. -/
theorem Labelled.length_le_lastScopes {last : SegmentPlan} {n : Int} {r : List Found × Option Spot}
    (hh : host.Labelled) (hlast : plan.segments.getLast? = some last)
    (hpick : last.pick = some ⟨.perScope, n⟩)
    (hanswer : (host.exposed plan.modifiers.includesHidden).answer true plan = .ok r) :
    ∃ scopes, host.lastScopes plan = .ok scopes ∧ r.1.length ≤ scopes.length := by
  obtain ⟨-, hcurrent, hselected⟩ := host.exposed_fields plan.modifiers.includesHidden
  have hsame : (host.exposed plan.modifiers.includesHidden).scopes plan.childSearch =
      host.scopes plan.childSearch := by rw [scopes, scopes, hcurrent, hselected]
  rw [answer, hsame] at hanswer
  rw [lastScopes]
  split
  · rename_i hlength
    obtain ⟨init, hsegments⟩ := List.getLast?_eq_some_iff.mp hlast
    obtain rfl : init = [] := by
      rw [hsegments, List.length_append, List.length_singleton] at hlength
      exact List.eq_nil_of_length_eq_zero (by omega)
    exact ⟨_, rfl, Finder.yields_length_answer_of_singleton hsegments hpick
      (host.scopes_ne_nil plan.childSearch) r hanswer⟩
  · rename_i hlength
    obtain ⟨before, hbefore, hle⟩ := Finder.yields_length_answer_of_withoutLast hlast hpick
      (Nat.lt_of_not_le hlength) r hanswer
    have hfront : (host.exposed plan.modifiers.includesHidden).answer true plan.withoutLast =
        .ok before := by
      rw [answer]
      exact (congrArg (fun scopes ↦ Finder.answer _ _ scopes _) hsame).trans hbefore
    refine ⟨before.1.map Found.spot, ?_, by rwa [List.length_map]⟩
    rw [hh.evaluated_eq]
    exact congrArg (fun answer ↦ Except.map Response.nodes (Except.map _ answer)) hfront

end Host

variable {host : Host} {query : String} {plan : QueryPlan} {m : Monitor} {r : Response}

/-- **Picks and `--f` only narrow.** A search finds no node twice, and finds nothing that the same
plan without its picks does not find; with `--f` or an index at the end it finds one node at most,
and with a pick in each scope no more nodes than its last segment has scopes. -/
theorem Engine.search_narrows (hh : host.Labelled) (hplan : parseQuery query = .ok plan)
    (hsearch : (Engine.new.search host query m).1 = .ok r) :
    (r.nodes.map Spot.place).Nodup ∧
      (∃ all, host.evaluated plan.unpicked = .ok all ∧ r.nodes ⊆ all.nodes) ∧
      (plan.modifiers.firstOverall = true ∨ plan.modifiers.index.isSome → r.nodes.length ≤ 1) ∧
      ∀ last n, plan.segments.getLast? = some last → last.pick = some ⟨.perScope, n⟩ →
        ∃ scopes, host.lastScopes plan = .ok scopes ∧ r.nodes.length ≤ scopes.length := by
  have htold := told_search hh m.calm_calmed rfl hplan fun r h ↦ by
    rw [recalled_new] at h
    cases h
  rw [allOrNothing_search.ok r hsearch] at htold
  have hanswer : (host.exposed plan.modifiers.includesHidden).answer true plan =
      .ok (r.results, r.page) := htold.symm
  have hlength : r.nodes.length = r.results.length := List.length_map _
  refine ⟨?_, ?_, ?_, ?_⟩
  · have hnodup := Finder.yields_unrepeated_answer _ _ _ _ _ hanswer
    rw [Response.nodes, List.map_map]
    exact hnodup
  · obtain ⟨all, hall, hsubset⟩ := (hh.exposed _).exists_answer_unpicked
      (QueryPlan.arranged_of_parseQuery hplan) hanswer
    refine ⟨{ results := all.1, page := all.2 }, ?_, hsubset⟩
    rw [hh.evaluated_eq]
    exact congrArg (Except.map _) hall
  · intro hone
    rw [hlength]
    cases hfirst : plan.modifiers.firstOverall with
    | true =>
      exact Finder.yields_length_answer_of_stopAtFirst (QueryPlan.pick_of_firstOverall hplan hfirst)
        _ hanswer
    | false =>
      have hindex : plan.modifiers.index.isSome := by simpa [hfirst] using hone
      cases hempty : plan.isEmpty with
      | true =>
        rw [Host.answer_of_isEmpty hempty] at hanswer
        obtain ⟨hnil, -⟩ := Prod.mk.inj (Except.ok.inj hanswer)
        rw [← hnil]
        exact Nat.zero_le 1
      | false =>
        exact Finder.yields_length_answer_of_finalPick
          (QueryPlan.finalPick_isSome hplan hindex hfirst hempty) _ hanswer
  · intro last n hlast hpick
    rw [hlength]
    exact hh.length_le_lastScopes hlast hpick hanswer

/-- For instance a search for the first title of each scope. -/
theorem Engine.search_narrows_cards :
    ∃ plan r, parseQuery "Title --1e" = .ok plan ∧
      (Engine.new.search .ofCards "Title --1e" {}).1 = .ok r ∧ (r.nodes.map Spot.place).Nodup ∧
        ∃ all, Host.ofCards.evaluated plan.unpicked = .ok all ∧ r.nodes ⊆ all.nodes := by
  obtain ⟨plan, hplan⟩ := exists_of_isOk
    (show (parseQuery "Title --1e").isOk = true by decide +kernel)
  obtain ⟨r, hr⟩ := exists_of_isOk
    (show (Engine.new.search .ofCards "Title --1e" {}).1.isOk = true by decide +kernel)
  obtain ⟨hnodup, hall, -⟩ := search_narrows Host.orderly_ofCards.labelled hplan hr
  exact ⟨plan, r, hplan, hr, hnodup, hall⟩

end SceneSearch
