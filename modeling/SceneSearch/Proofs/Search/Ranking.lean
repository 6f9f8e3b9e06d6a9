import SceneSearch.Proofs.Query.Rank
import SceneSearch.Proofs.Search.Narrowing
import SceneSearch.Proofs.Sorting.Sorted

/-!
# Ranks enumerate what is found

With a rank behind it a query finds one of the results that it finds without: the one that has this
rank among them in reading order, and the last of them for zero. This rests on two facts. The
evaluation does not see the rank before all segments are done, so that both queries come to the same
matches (`result_trace_finalPick`); and no node is found twice (`yields_unrepeated_trace`), so that
choosing a node is choosing one match, with its path. Sorting only changes the order of the matches,
whatever geometry they have.

All of this is said of traces, whatever lookups are remembered on the way. So it holds on every
host, also where ids are repeated and a remembered lookup may be that of another node.
-/

namespace SceneSearch

open Evaluation

/-! ## Ranks -/

/-- The item of a rank: counted from one, and the last one for zero. -/
def atRank {α : Type} (k : Nat) (items : List α) : Option α :=
  if k = 0 then items.getLast? else items[k - 1]?

section

variable {α β : Type} {k : Nat} {items : List α}

theorem atRank_map (f : α → β) (k : Nat) (items : List α) :
    atRank k (items.map f) = (atRank k items).map f := by
  rw [atRank, atRank]
  split
  · exact List.getLast?_map
  · exact List.getElem?_map

theorem mem_of_atRank {a : α} (h : atRank k items = some a) : a ∈ items := by
  rw [atRank] at h
  split at h
  · exact List.mem_of_getLast? h
  · exact List.mem_of_getElem? h

private theorem atRank_of_pos (h : 1 ≤ k) : atRank k items = items[k - 1]? := if_neg (by omega)

private theorem atRank_length (items : List α) : atRank items.length items = atRank 0 items := by
  rw [atRank, atRank, if_pos rfl, List.getLast?_eq_getElem?]
  split
  · rename_i hzero
    rw [hzero]
  · rfl

theorem RankPick.choose_natCast (scope : PickScope) (k : Nat) (items : List α) :
    (⟨scope, k⟩ : RankPick).choose items = .ok (atRank k items) := by
  rw [choose, atRank]
  cases hlast : items.getLast? with
  | none =>
    obtain rfl := List.getLast?_eq_none_iff.mp hlast
    simp
  | some last =>
    dsimp only
    split
    · rename_i hzero
      rw [if_pos (by exact_mod_cast hzero)]
    · rename_i hne
      have hk : k ≠ 0 := by exact_mod_cast hne
      rw [if_neg hk]
      split
      · rename_i hlt
        rw [List.getElem?_eq_none (by omega)]
      · rw [if_pos (by omega)]
        congr 2
        omega

end

namespace Evaluation

variable {α β : Type} {P : α → Prop} {Q : β → Prop} {bulk allowSelf childSearch : Bool}
  {host : Host} {segment : SegmentPlan} {segments : List SegmentPlan} {matcher : NameMatcher}
  {scopes : List Spot} {found : List Found} {plan : QueryPlan}

/-! ## No node is found twice -/

/-- If a part of a search comes to a result, this has a property, whatever lookups are
remembered. -/
def Comes (x : Search α) (P : α → Prop) : Prop :=
  ∀ pools, Yields (x pools).result fun r ↦ P r.1

private theorem comes_anywhere (x : Search α) : Comes x fun _ ↦ True := fun _ _ _ ↦ trivial

theorem comes_pure {a : α} (h : P a) : Comes (pure a) P := fun _ ↦ .of_ok h

theorem Comes.bind {x : Search α} {f : α → Search β} (hx : Comes x P)
    (hf : ∀ a, P a → Comes (f a) Q) : Comes (x >>= f) Q := by
  intro pools
  rw [bind_apply, Trace.result_andThen]
  have hresult := hx pools
  cases hfirst : (x pools).result with
  | error fault => exact nofun
  | ok r => exact hf r.1 (hresult r hfirst) r.2

theorem Comes.after {x : Search α} {f : α → Search β} (hf : ∀ a, Comes (f a) Q) :
    Comes (x >>= f) Q := (comes_anywhere x).bind fun a _ ↦ hf a

private theorem unrepeated_toList {chosen : Option Found} : Unrepeated chosen.toList :=
  Finder.unrepeated_of_length_le_one (by cases chosen <;> simp)

private theorem comes_findFirst (scopes : List Spot) :
    Comes (findFirst host segment matcher allowSelf scopes) Unrepeated := by
  induction scopes with
  | nil => exact comes_pure List.nodup_nil
  | cons scope rest ih =>
    rw [findFirst]
    refine .after fun _ ↦ .after fun matched ↦ ?_
    cases matched with
    | nil => exact ih
    | cons s more => exact comes_pure (List.nodup_singleton _)

private theorem comes_evaluateSegment :
    Comes (evaluateSegment bulk host segment allowSelf scopes) Unrepeated := by
  rw [evaluateSegment]
  split
  · split
    · refine .after fun groups ↦ .after fun chosen ↦ comes_pure ?_
      rw [← Option.toList_map]
      exact unrepeated_toList
    · exact .after fun picked ↦ comes_pure (unrepeated_distinct _)
  · split
    · exact comes_findFirst scopes
    · exact .after fun groups ↦ comes_pure (unrepeated_distinct _)

private theorem comes_evaluateSegments (hfound : Unrepeated found) :
    Comes (evaluateSegments bulk host childSearch found scopes segments) Unrepeated := by
  induction segments generalizing found scopes with
  | nil => exact comes_pure hfound
  | cons segment rest ih =>
    rw [evaluateSegments]
    refine .after fun _ ↦ comes_evaluateSegment.bind fun found' hfound' ↦ .after fun _ ↦ ?_
    split
    · exact comes_pure List.nodup_nil
    · exact ih hfound'

/-- What the end of a plan keeps of matches is not repeated if they are not. -/
theorem comes_finish (hfound : Unrepeated found) :
    Comes (liftExcept (finish plan found)) Unrepeated := by
  intro pools
  rw [liftExcept, follow, Trace.result_andThen]
  cases hfinish : finish plan found with
  | error fault =>
    intro r h
    cases h
  | ok final =>
    exact .of_ok (hfound.sublist (Finder.yields_finish_sublist plan found final hfinish))

private theorem comes_evaluatePlan : Comes (evaluatePlan bulk host plan) fun r ↦ Unrepeated r.1 :=
    by
  have hend : ∀ (found : List Found) (scopes : List Spot) (segments : List SegmentPlan)
      (page : Option Spot), Unrepeated found →
      Comes (do
        let found ← evaluateSegments bulk host plan.childSearch found scopes segments
        let found ← liftExcept (finish plan found)
        pure (found, page)) fun r ↦ Unrepeated r.1 := fun found scopes segments page hfound ↦
    (comes_evaluateSegments hfound).bind fun found' hfound' ↦
      (comes_finish hfound').bind fun final hfinal ↦ comes_pure hfinal
  rw [evaluatePlan]
  split
  · refine .after fun page? ↦ ?_
    cases page? with
    | none => exact comes_pure List.nodup_nil
    | some page => exact hend _ _ _ _ (List.nodup_singleton _)
  · exact hend _ _ _ _ List.nodup_nil

/-! ## Only the end sees the rank -/

theorem finish_nil (plan : QueryPlan) : finish plan [] = .ok [] := by
  rw [finish]
  split <;> rfl

private theorem evaluatePlan_finalPick (bulk : Bool) (host : Host) (hnone : plan.finalPick = none)
    {ranked : QueryPlan} (hsegments : ranked.segments = plan.segments)
    (hchild : ranked.childSearch = plan.childSearch) :
    evaluatePlan bulk host ranked = (do
      let r ← evaluatePlan bulk host plan
      let found ← liftExcept (finish ranked r.1)
      pure (found, r.2)) := by
  have hend : ∀ (found : List Found) (scopes : List Spot) (segments : List SegmentPlan)
      (page : Option Spot),
      (do
        let found ← evaluateSegments bulk host plan.childSearch found scopes segments
        let found ← liftExcept (finish ranked found)
        pure (found, page)) = (do
      let r ← (do
        let found ← evaluateSegments bulk host plan.childSearch found scopes segments
        let found ← liftExcept (finish plan found)
        pure (found, page) : Search (List Found × Option Spot))
      let found ← liftExcept (finish ranked r.1)
      pure (found, r.2)) := by
    intro found scopes segments page
    rw [bind_assoc]
    refine bind_congr fun found' ↦ ?_
    have hkept : finish plan found' = .ok found' := by
      rw [finish, hnone]
      rfl
    rw [hkept]
    rfl
  have hdirective : ranked.hasPageDirective = plan.hasPageDirective := by
    rw [QueryPlan.hasPageDirective, QueryPlan.hasPageDirective, hsegments]
  rw [evaluatePlan, evaluatePlan, hdirective, hsegments, hchild]
  split
  · rw [bind_assoc]
    refine bind_congr fun page? ↦ ?_
    cases page? with
    | none =>
      change pure ([], none) = liftExcept (finish ranked []) >>= fun found ↦ pure (found, none)
      rw [finish_nil]
      rfl
    | some page => exact hend _ _ _ _
  · exact hend _ _ _ _

end Evaluation

namespace QueryPlan

variable {plan ranked : QueryPlan} {host : Host} {settings : Settings} {r : Response}

private theorem result_trace_finalPick (hnone : plan.finalPick = none)
    (hsegments : ranked.segments = plan.segments) (hchild : ranked.childSearch = plan.childSearch)
    (hresult : (plan.trace host settings).result = .ok r) :
    (ranked.trace host settings).result =
      (finish ranked r.results).map fun found ↦ { results := found, page := r.page } := by
  rw [trace, Trace.result_andThen] at hresult ⊢
  rw [evaluatePlan_finalPick _ _ hnone hsegments hchild, bind_apply, Trace.result_andThen]
  cases hplan : (evaluatePlan settings.bulk host plan settings.pools).result with
  | error fault =>
    rw [hplan] at hresult
    cases hresult
  | ok found =>
    rw [hplan] at hresult
    obtain rfl := Except.ok.inj hresult
    dsimp only
    rw [bind_apply, Evaluation.liftExcept, follow, Trace.result_andThen, Trace.result_andThen]
    cases hfinish : finish ranked found.1.1 with
    | error fault => rfl
    | ok final => rfl

private theorem unrepeated_of_result_trace (hresult : (plan.trace host settings).result = .ok r) :
    Unrepeated r.results := by
  rw [trace, Trace.result_andThen] at hresult
  cases hplan : (evaluatePlan settings.bulk host plan settings.pools).result with
  | error fault =>
    rw [hplan] at hresult
    cases hresult
  | ok found =>
    rw [hplan] at hresult
    obtain rfl := Except.ok.inj hresult
    exact comes_evaluatePlan _ found hplan

end QueryPlan

/-! ## The match of a rank -/

theorem Evaluation.Unrepeated.filter_same {found : List Found} (h : Unrepeated found) {f : Found}
    (hf : f ∈ found) : found.filter (fun g ↦ g.spot.same f.spot) = [f] := by
  induction found with
  | nil => cases hf
  | cons g rest ih =>
    obtain ⟨hhead, hrest⟩ := List.nodup_cons.mp h
    have hnew : ∀ f' ∈ rest, g.spot.place ≠ f'.spot.place := fun f' hf' heq ↦
      hhead (List.mem_map.mpr ⟨f', hf', heq.symm⟩)
    rw [List.filter_cons]
    rcases List.mem_cons.mp hf with rfl | hf
    · have hnone : rest.filter (fun g ↦ g.spot.same f.spot) = [] :=
        List.filter_eq_nil_iff.mpr fun g hg hsame ↦ hnew g hg (Spot.same_iff.mp hsame).symm
      rw [if_pos (Spot.same_iff.mpr rfl), hnone]
    · rw [if_neg fun hsame ↦ hnew f hf (Spot.same_iff.mp hsame), ih hrest hf]

/-- A choice at the end keeps the match of its rank in reading order, pages left out. -/
theorem pickFinal_natCast {found ranked : List Found} (h : Unrepeated found)
    (hsort : sortVisually ((found.filter (·.spot.kind ≠ .page)).map Found.spot) =
      .ok (ranked.map Found.spot))
    (hperm : ranked.Perm (found.filter (·.spot.kind ≠ .page))) (k : Nat) :
    pickFinal found ⟨.overall, k⟩ = .ok (atRank k ranked).toList := by
  have hkept : Unrepeated (found.filter (·.spot.kind ≠ .page)) := h.sublist List.filter_sublist
  have hchoose : choose ⟨.overall, k⟩ ((found.filter (·.spot.kind ≠ .page)).map Found.spot) =
      .ok ((atRank k ranked).map Found.spot) := by
    rw [choose, hsort]
    change (RankPick.choose ⟨.overall, k⟩ _).mapError _ = _
    rw [RankPick.choose_natCast, atRank_map]
    rfl
  rw [pickFinal, hchoose]
  change Except.ok _ = _
  cases hrank : atRank k ranked with
  | none => simp
  | some f =>
    have hf : f ∈ found.filter (·.spot.kind ≠ .page) := hperm.subset (mem_of_atRank hrank)
    exact congrArg Except.ok (hkept.filter_same hf)

theorem sortVisually_nil : sortVisually [] = .ok [] := by
  obtain ⟨sorted, hsorted⟩ := exists_of_isOk
    (show (sortVisually []).isOk = true by decide +kernel)
  rw [hsorted, List.perm_nil.mp (sortVisually_perm hsorted)]

theorem pickFinal_nil (k : Nat) : pickFinal [] ⟨.overall, k⟩ = .ok [] := by
  rw [@pickFinal_natCast [] [] List.nodup_nil sortVisually_nil .nil k, atRank]
  split <;> rfl

private theorem finish_of_pick {found : List Found} {k : Nat} {plan : QueryPlan}
    (hpick : plan.finalPick = some ⟨.overall, k⟩) :
    finish plan found = pickFinal found ⟨.overall, k⟩ := by
  rw [finish, hpick]
  dsimp only
  split
  · rename_i hempty
    rw [List.isEmpty_iff.mp hempty, pickFinal_nil]
    rfl
  · rfl

/-- The nodes that are left by a choice at the end, and how it fails. -/
theorem map_spot_pickFinal {found : List Found} (h : Unrepeated found) (k : Nat) :
    (pickFinal found ⟨.overall, k⟩).map (List.map Found.spot) =
      ((sortVisually ((found.filter (·.spot.kind ≠ .page)).map Found.spot)).mapError
        SearchFault.rows).map fun sorted ↦ (atRank k sorted).toList := by
  cases hsort : sortVisually ((found.filter (·.spot.kind ≠ .page)).map Found.spot) with
  | error fault =>
    rw [pickFinal, choose, hsort]
    rfl
  | ok sorted =>
    obtain ⟨ranked, hranked, rfl⟩ := exists_perm_map (sortVisually_perm hsort)
    rw [pickFinal_natCast h hsort hranked]
    change Except.ok ((atRank k ranked).toList.map Found.spot) =
      Except.ok (atRank k (ranked.map Found.spot)).toList
    rw [atRank_map, Option.toList_map]

/-! ## Searches -/

/-- Without an index in its last piece a query makes no choice at its end. -/
theorem QueryPlan.finalPick_eq_none {query : String} {plan : QueryPlan}
    (hplan : parseQuery query = .ok plan) (hindex : plan.modifiers.index = none) :
    plan.finalPick = none := by
  obtain ⟨pieces, -, rfl⟩ := exists_ofPieces hplan
  have hindex' : (modifiersOf pieces).index = none := hindex
  simp only [ofPieces, hindex']

namespace Engine

variable {host : Host} {query : String} {plan : QueryPlan} {m : Monitor} {r : Response}
  {ranked : List Found} {k : Nat}

theorem exists_result_trace (hm : m.Calm) (hplan : parseQuery query = .ok plan)
    (hne : plan.isEmpty = false) (hsearch : (Engine.new.search host query m).1 = .ok r) :
    ∃ r', (plan.trace (host.exposed plan.modifiers.includesHidden)).result = .ok r' ∧
      r'.results = r.results ∧ r'.page = r.page := by
  have htold : (Engine.new.search host query m).1.map Response.told = _ :=
    told_search_new hm hplan hne
  rw [hsearch] at htold
  cases hresult : (plan.trace (host.exposed plan.modifiers.includesHidden)).result with
  | error fault =>
    rw [hresult] at htold
    cases htold
  | ok r' =>
    rw [hresult] at htold
    obtain ⟨hresults, hpage⟩ : r.results = r'.results ∧ r.page = r'.page :=
      Prod.mk.inj (Except.ok.inj htold)
    exact ⟨r', rfl, hresults.symm, hpage.symm⟩

theorem unrepeated_search (hm : m.Calm) (hplan : parseQuery query = .ok plan)
    (hsearch : (Engine.new.search host query m).1 = .ok r) : Unrepeated r.results := by
  cases hempty : plan.isEmpty with
  | true =>
    rw [outcome_search hm hplan, if_pos hempty] at hsearch
    obtain rfl := Except.ok.inj hsearch
    exact List.nodup_nil
  | false =>
    obtain ⟨r', hresult, hresults, -⟩ := exists_result_trace hm hplan hempty hsearch
    exact hresults ▸ QueryPlan.unrepeated_of_result_trace hresult

/-- **The result of a rank**: with a rank behind its query a search makes the choice at the end, and
nothing else is different. -/
theorem told_search_rank (hm : m.Calm) (hplan : parseQuery query = .ok plan)
    (hclosed : Even (query.toList.count '"')) (hfirst : plan.modifiers.firstOverall = false)
    (hindex : plan.modifiers.index = none)
    (hsearch : (Engine.new.search host query m).1 = .ok r)
    (hdigits : (toString k).length ≤ digitLimit) :
    (Engine.new.search host (query ++ (" --" ++ toString k)) m).1.map Response.told =
      (pickFinal r.results ⟨.overall, k⟩).map fun found ↦ (found, r.page) := by
  have hrank := QueryPlan.parseQuery_append_rank hplan hclosed hfirst hdigits
  have hempty' : (plan.withRank (query ++ (" --" ++ toString k)) k).isEmpty = plan.isEmpty := rfl
  cases hempty : plan.isEmpty with
  | true =>
    -- nothing is looked for, so that nothing is found
    rw [outcome_search hm hplan, if_pos hempty] at hsearch
    obtain rfl := Except.ok.inj hsearch
    rw [outcome_search hm hrank, if_pos (hempty'.trans hempty), pickFinal_nil]
    rfl
  | false =>
    rw [told_search_new hm hrank (hempty'.trans hempty)]
    obtain ⟨r', hresult, hresults, hpage⟩ := exists_result_trace hm hplan hempty hsearch
    have hpick : (plan.withRank (query ++ (" --" ++ toString k)) k).finalPick =
        some ⟨.overall, k⟩ := by
      rw [QueryPlan.withRank, hempty]
      rfl
    have hfinal : ((plan.withRank (query ++ (" --" ++ toString k)) k).trace
        (host.exposed plan.modifiers.includesHidden)).result = _ :=
      QueryPlan.result_trace_finalPick (QueryPlan.finalPick_eq_none hplan hindex) rfl rfl hresult
    refine (congrArg _ hfinal).trans ?_
    rw [finish_of_pick hpick, hresults, hpage]
    cases pickFinal r.results ⟨.overall, k⟩ <;> rfl

private theorem told_search_append_rank (hm : m.Calm) (hplan : parseQuery query = .ok plan)
    (hclosed : Even (query.toList.count '"')) (hfirst : plan.modifiers.firstOverall = false)
    (hindex : plan.modifiers.index = none)
    (hsearch : (Engine.new.search host query m).1 = .ok r)
    (hsort : sortVisually (r.selectable.map Found.spot) = .ok (ranked.map Found.spot))
    (hperm : ranked.Perm r.selectable) (hdigits : (toString k).length ≤ digitLimit) :
    (Engine.new.search host (query ++ (" --" ++ toString k)) m).1.map Response.told =
      .ok ((atRank k ranked).toList, r.page) := by
  rw [told_search_rank hm hplan hclosed hfirst hindex hsearch hdigits,
    pickFinal_natCast (unrepeated_search hm hplan hsearch) hsort hperm]
  rfl

/-- The node of the rank is that one among the nodes in reading order, if there is such an order. -/
theorem nodes_search_append_rank (hm : m.Calm) (hplan : parseQuery query = .ok plan)
    (hclosed : Even (query.toList.count '"')) (hfirst : plan.modifiers.firstOverall = false)
    (hindex : plan.modifiers.index = none)
    (hsearch : (Engine.new.search host query m).1 = .ok r)
    (hdigits : (toString k).length ≤ digitLimit) :
    (Engine.new.search host (query ++ (" --" ++ toString k)) m).1.map Response.nodes =
      ((sortVisually (r.selectable.map Found.spot)).mapError SearchFault.rows).map
        fun sorted ↦ (atRank k sorted).toList := by
  have htold := told_search_rank hm hplan hclosed hfirst hindex hsearch hdigits
  rw [Response.selectable, ← map_spot_pickFinal (unrepeated_search hm hplan hsearch)]
  have hnodes := congrArg (Except.map fun told : List Found × Option Spot ↦
    told.1.map Found.spot) htold
  generalize (Engine.new.search host (query ++ (" --" ++ toString k)) m).1 = answer at hnodes
  cases answer <;> cases hpick : pickFinal r.results ⟨.overall, k⟩ <;> rw [hpick] at hnodes <;>
    exact hnodes

end Engine

variable {host : Host} {query : String} {plan : QueryPlan} {m : Monitor} {r : Response}
  {sorted : List Spot}

/-- **Ranks enumerate what is found.** Behind a query that leaves no quote open, and has neither
`--f` nor an index of its own, the ranks from one on give the results of the query, each once with
its path, in reading order, and none after the last one; zero gives the last one. -/
theorem Engine.ranks_enumerate_search (hm : m.Calm) (hplan : parseQuery query = .ok plan)
    (hclosed : Even (query.toList.count '"')) (hfirst : plan.modifiers.firstOverall = false)
    (hindex : plan.modifiers.index = none) (hsearch : (Engine.new.search host query m).1 = .ok r)
    (hsort : sortVisually (r.selectable.map Found.spot) = .ok sorted) :
    ∃ ranked : List Found, ranked.Perm r.selectable ∧ ranked.map Found.spot = sorted ∧
      (ranked.map fun f ↦ f.spot.place).Nodup ∧
      (∀ k : Nat, 1 ≤ k → (toString k).length ≤ digitLimit →
        (Engine.new.search host (query ++ " --" ++ toString k) m).1.map Response.told =
          .ok (ranked[k - 1]?.toList, r.page)) ∧
      (Engine.new.search host (query ++ " --0") m).1.map Response.told =
        .ok (ranked.getLast?.toList, r.page) ∧
      ((toString ranked.length).length ≤ digitLimit →
        (Engine.new.search host (query ++ " --0") m).1.map Response.told =
          (Engine.new.search host (query ++ " --" ++ toString ranked.length) m).1.map
            Response.told) := by
  have hperm := sortVisually_perm hsort
  obtain ⟨ranked, hranked, rfl⟩ := exists_perm_map hperm
  have hnodup : Unrepeated r.selectable :=
    (unrepeated_search hm hplan hsearch).sublist List.filter_sublist
  have hall := fun k ↦ @told_search_append_rank host query plan m r ranked k hm hplan hclosed hfirst
    hindex hsearch hsort hranked
  have hzero : (Engine.new.search host (query ++ " --0") m).1.map Response.told =
      .ok ((atRank 0 ranked).toList, r.page) := hall 0 (by decide)
  refine ⟨ranked, hranked, rfl, (hranked.map _).nodup_iff.mpr hnodup, ?_, hzero, ?_⟩
  · intro k hk hdigits
    rw [String.append_assoc, hall k hdigits, atRank_of_pos hk]
  · intro hdigits
    rw [hzero, String.append_assoc, hall _ hdigits, atRank_length]

/-- For instance a search for the titles of cards. -/
theorem Engine.ranks_enumerate_search_cards :
    ∃ (r : Response) (ranked : List Found), (Engine.new.search .ofCards "Title" {}).1 = .ok r ∧
      ranked.Perm r.selectable ∧
      (Engine.new.search .ofCards "Title --1" {}).1.map Response.told =
        .ok (ranked[0]?.toList, r.page) ∧
      (Engine.new.search .ofCards "Title --0" {}).1.map Response.told =
        .ok (ranked.getLast?.toList, r.page) := by
  obtain ⟨plan, hplan, hplain⟩ := exists_of_any
    (show ((parseQuery "Title").toOption.any fun plan ↦
      !plan.modifiers.firstOverall && plan.modifiers.index.isNone) = true by decide +kernel)
  obtain ⟨r, hr, hsorts⟩ := exists_of_any
    (show ((Engine.new.search .ofCards "Title" {}).1.toOption.any fun r ↦
      (sortVisually (r.selectable.map Found.spot)).isOk) = true by decide +kernel)
  obtain ⟨sorted, hsorted⟩ := exists_of_isOk hsorts
  obtain ⟨hfirst, hindex⟩ := Bool.and_eq_true_iff.mp hplain
  obtain ⟨ranked, hperm, -, -, hranks, hlast, -⟩ := ranks_enumerate_search Monitor.calm_default
    hplan (by decide) (by simpa using hfirst) (by simpa using hindex) hr hsorted
  exact ⟨r, ranked, hr, hperm, hranks 1 (Nat.le_refl 1) (by decide), hlast⟩

end SceneSearch
