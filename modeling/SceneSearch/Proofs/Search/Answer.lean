import SceneSearch.Proofs.Search.Occurrences
import SceneSearch.Proofs.Search.Visibility
import SceneSearch.Proofs.Traversal
import SceneSearch.Search.Evaluation

/-!
# Answers without walks

What a search finds is told here without its walks, its remembered lookups and its events: the
matches of one scope are a filtered list, and an answer is put together from the matches of its
scopes. How the matches of one scope are found is left open, as a `Finder`, since all that is ever
said about a search is how two ways to find them compare. `Finder.answer_congr` lifts such a
comparison from one scope to whole answers, provided it holds at every node that can become a scope;
`Spot → Prop` stands for these nodes.
-/

namespace SceneSearch

/-! ## The matches of one scope -/

namespace Host

/-- Which children the host shows. -/
def shown (h : Host) : Exposure := exposure h.skipsInstanceChildren

/-- The nodes of some kinds that a lookup below a scope leaves visible. -/
def lookup (h : Host) (scope : Spot) (kinds : List NodeKind) : List Spot :=
  ((scope.descendants h.shown fun _ ↦ false).filter fun s ↦ kinds.contains s.kind).filter
    (·.isEffectivelyVisible (some scope))

end Host

namespace Evaluation

section

variable (segment : SegmentPlan) (matcher : NameMatcher) (scope : Spot)

/-- The scope itself, where it matches. -/
def ownMatches : List Spot :=
  (if scope.kind.isRootLike then [] else [scope]).filter fun s ↦
    fits segment matcher s && s.isEligible segment.visibility s.parent?

/-- The matches among the children of a scope. -/
def childMatches (host : Host) : List Spot :=
  (scope.shownChildren host.shown).filter fun s ↦
    fits segment matcher s && s.isEligible segment.visibility (some scope)

/-- The matches below a scope that a walk comes to. -/
def walkMatches (host : Host) : List Spot :=
  (scope.descendants host.shown fun s ↦ segment.visibility.prunesHidden && !s.visible).filter
    fun s ↦ !(segment.visibility == .hiddenOnly && s.visible) && fits segment matcher s

/-- The matches below a scope. -/
def matchesBelow (bulk : Bool) (host : Host) : List Spot :=
  if segment.direct then childMatches segment matcher scope host
  else
    match bulkKinds? bulk segment with
    | some kinds => (host.lookup scope kinds).filter fun s ↦ matcher.accepts s.name
    | none => walkMatches segment matcher scope host

end

/-- A way to find the matches of a segment at, if that is allowed, and below a scope. -/
abbrev Finder := SegmentPlan → Bool → Spot → List Spot

/-- How a host is searched. -/
def finder (bulk : Bool) (host : Host) : Finder := fun segment allowSelf scope ↦
  let matcher := NameMatcher.ofQuery segment.nameQuery
  (if allowSelf then ownMatches segment matcher scope else []) ++
    matchesBelow segment matcher scope bulk host

/-! ## Answers -/

namespace Finder

/-- The matches of some scopes, each with its path. -/
def foundIn (find : Finder) (segment : SegmentPlan) (allowSelf : Bool) (scopes : List Spot) :
    List Found :=
  scopes.flatMap fun scope ↦ (find segment allowSelf scope).map fun s ↦ ⟨s, s.pathFrom scope⟩

/-- The pick of each scope, with its path. -/
def pickIn (find : Finder) (segment : SegmentPlan) (pick : RankPick) (allowSelf : Bool)
    (scope : Spot) : Except SearchFault (List Found) :=
  (choose pick (find segment allowSelf scope) scope).map fun chosen ↦
    chosen.toList.map fun s ↦ ⟨s, s.pathFrom scope⟩

/-- What a segment keeps of the matches of its scopes. -/
def segmentAnswer (find : Finder) (segment : SegmentPlan) (allowSelf : Bool)
    (scopes : List Spot) : Except SearchFault (List Found) :=
  match segment.pick with
  | some pick =>
    match pick.scope with
    | .overall =>
      (choose pick (distinctSpots (scopes.flatMap (find segment allowSelf)))).map fun chosen ↦
        chosen.toList.map fun s ↦ ⟨s, s.path⟩
    | .perScope =>
      (scopes.mapM (find.pickIn segment pick allowSelf)).map fun picked ↦ distinct picked.flatten
  | none =>
    let found := find.foundIn segment allowSelf scopes
    .ok (if segment.stopAtFirst then found.take 1 else distinct found)

/-- What segments find one below the other. -/
def segmentsAnswer (find : Finder) (childSearch : Bool) (found : List Found) (scopes : List Spot) :
    List SegmentPlan → Except SearchFault (List Found)
  | [] => .ok found
  | segment :: rest => do
    let found ← find.segmentAnswer segment (segment.isFirst && !childSearch) scopes
    if found.isEmpty then pure []
    else segmentsAnswer find childSearch found (found.map Found.spot) rest

end Finder

/-- What a plan finds below the page that it names, or in the starting scopes. -/
def Finder.answer (find : Finder) (pages scopes : List Spot) (plan : QueryPlan) :
    Except SearchFault (List Found × Option Spot) :=
  match plan.hasPageDirective, plan.segments with
  | true, directive :: rest =>
    match pages.find? fun page ↦ (NameMatcher.ofQuery directive.nameQuery).accepts page.name with
    | none => pure ([], none)
    | some page => do
      let found ← find.segmentsAnswer plan.childSearch [⟨page, page.path⟩] [page] rest
      let found ← finish plan found
      pure (found, some page)
  | _, segments => do
    let found ← find.segmentsAnswer plan.childSearch [] scopes segments
    let found ← finish plan found
    pure (found, none)

end Evaluation

open Evaluation

/-- What a plan finds on a host. -/
def Host.answer (bulk : Bool) (host : Host) (plan : QueryPlan) :
    Except SearchFault (List Found × Option Spot) :=
  (finder bulk host).answer host.document.pages (host.scopes plan.childSearch) plan

/-! ## What is found stays in a set of nodes -/

namespace Evaluation

theorem mem_of_rankPick {α : Type} {pick : RankPick} {items : List α} {a : α}
    (h : pick.choose items = .ok (some a)) : a ∈ items := by
  rw [RankPick.choose] at h
  split at h
  · cases h
  · rename_i last hlast
    split at h
    · cases h
      exact List.mem_of_getLast? hlast
    · split at h
      · cases h
      · split at h
        · exact List.mem_of_getElem? (Except.ok.inj h)
        · dsimp only at h
          split at h
          · rename_i item hitem
            cases h
            split at hitem
            · cases hitem
            · exact List.mem_of_getElem? hitem
          · cases h

theorem sortVisually_perm {spots sorted : List Spot} {scope : Option Spot}
    (h : sortVisually spots scope = .ok sorted) : sorted.Perm spots := by
  rw [sortVisually] at h
  cases horder : VisualOrder.forCandidates spots scope with
  | error fault =>
    rw [horder] at h
    cases h
  | ok order =>
    rw [horder] at h
    obtain rfl := Except.ok.inj h
    exact sortBy_perm _ spots

theorem mem_of_choose {pick : RankPick} {spots : List Spot} {scope : Option Spot} {s : Spot}
    (h : choose pick spots scope = .ok (some s)) : s ∈ spots := by
  rw [choose] at h
  cases hsort : sortVisually spots scope with
  | error fault =>
    rw [hsort] at h
    cases h
  | ok sorted =>
    rw [hsort] at h
    have hpick : (pick.choose sorted).mapError SearchFault.outOfRange = .ok (some s) := h
    cases hchosen : pick.choose sorted with
    | error fault =>
      rw [hchosen] at hpick
      cases hpick
    | ok chosen =>
      rw [hchosen] at hpick
      obtain rfl : chosen = some s := Except.ok.inj hpick
      exact (sortVisually_perm hsort).mem_iff.mp (mem_of_rankPick hchosen)

/-- If there is a result, it has a property. -/
def Yields {ε α : Type} (r : Except ε α) (P : α → Prop) : Prop := ∀ a, r = .ok a → P a

namespace Yields

variable {ε α β : Type} {P : α → Prop} {Q : β → Prop} {r : Except ε α}

theorem of_ok {a : α} (h : P a) : Yields (.ok a : Except ε α) P := by
  rintro _ ⟨⟩
  exact h

theorem bind {f : α → Except ε β} (hr : Yields r P) (hf : ∀ a, P a → Yields (f a) Q) :
    Yields (r >>= f) Q := by
  cases r with
  | error fault => exact nofun
  | ok a => exact hf a (hr a rfl)

theorem map {f : α → β} (hr : Yields r P) (hf : ∀ a, P a → Q (f a)) : Yields (r.map f) Q := by
  cases r with
  | error fault => exact nofun
  | ok a => exact of_ok (hf a (hr a rfl))

private theorem mapM {f : β → Except ε α} {items : List β} (hf : ∀ b ∈ items, Yields (f b) P) :
    Yields (items.mapM f) fun results ↦ ∀ a ∈ results, P a := by
  induction items with
  | nil => exact of_ok (by simp)
  | cons b rest ih =>
    have hrest := ih fun c hc ↦ hf c (List.mem_cons_of_mem b hc)
    rw [List.mapM_cons]
    refine (hf b List.mem_cons_self).bind fun a ha ↦ hrest.bind fun as has ↦ of_ok ?_
    simpa using ⟨ha, has⟩

end Yields

/-- Whatever a segment finds from nodes of one set is in another one. -/
def Finder.Leads (find : Finder) (set target : Spot → Prop) (segment : SegmentPlan) : Prop :=
  ∀ allowSelf s, set s → ∀ t ∈ find segment allowSelf s, target t

/-- Whatever a segment finds from nodes of the set is in the set. -/
def Finder.StaysIn (find : Finder) (set : Spot → Prop) (segment : SegmentPlan) : Prop :=
  ∀ allowSelf s, set s → ∀ t ∈ find segment allowSelf s, set t

/-- Two ways to find matches are the same from nodes of the set. -/
def Finder.AgreesOn (find other : Finder) (set : Spot → Prop) (segment : SegmentPlan) : Prop :=
  ∀ allowSelf s, set s → find segment allowSelf s = other segment allowSelf s

namespace Finder

variable {find other : Finder} {set target : Spot → Prop} {segment : SegmentPlan}
  {segments : List SegmentPlan} {plan : QueryPlan} {allowSelf childSearch : Bool}
  {pages scopes : List Spot} {found : List Found} {f : Found}

theorem mem_foundIn : f ∈ find.foundIn segment allowSelf scopes ↔
    ∃ scope ∈ scopes, ∃ s ∈ find segment allowSelf scope, ⟨s, s.pathFrom scope⟩ = f := by
  simp [foundIn]

theorem map_spot_foundIn : (find.foundIn segment allowSelf scopes).map Found.spot =
    scopes.flatMap (find segment allowSelf) := by
  simp [foundIn, List.map_flatMap, Function.comp_def]

theorem Leads.of_mem_foundIn (hleads : find.Leads set target segment)
    (hscopes : ∀ s ∈ scopes, set s) (hf : f ∈ find.foundIn segment allowSelf scopes) :
    target f.spot := by
  obtain ⟨scope, hscope, s, hs, rfl⟩ := mem_foundIn.mp hf
  exact hleads allowSelf scope (hscopes scope hscope) s hs

private theorem yields_choose (pick : RankPick) {spots : List Spot} {scope : Option Spot}
    {path : Spot → String} (hspots : ∀ s ∈ spots, set s) :
    Yields
      ((choose pick spots scope).map fun chosen ↦
        chosen.toList.map fun s ↦ (⟨s, path s⟩ : Found))
      fun found ↦ ∀ f ∈ found, set f.spot := by
  have hchoose : Yields (choose pick spots scope) fun chosen ↦ ∀ s, chosen = some s → set s := by
    rintro _ h s rfl
    exact hspots s (mem_of_choose h)
  refine hchoose.map fun chosen hchosen f hf ↦ ?_
  obtain ⟨s, hs, rfl⟩ := List.mem_map.mp hf
  exact hchosen s (by simpa using hs)

theorem yields_segmentAnswer (find : Finder) (segment : SegmentPlan) (allowSelf : Bool)
    (scopes : List Spot) :
    Yields (find.segmentAnswer segment allowSelf scopes)
      fun found ↦ ∀ f ∈ found, f.spot ∈ scopes.flatMap (find segment allowSelf) := by
  rw [segmentAnswer]
  split
  · rename_i pick _
    split
    · exact yields_choose pick fun s hs ↦ mem_of_firstOccurrences hs
    · have hpicked : Yields (scopes.mapM (find.pickIn segment pick allowSelf))
          fun picked ↦ ∀ found ∈ picked, ∀ f ∈ found,
            f.spot ∈ scopes.flatMap (find segment allowSelf) :=
        .mapM fun scope hscope ↦ yields_choose pick fun s hs ↦
          List.mem_flatMap.mpr ⟨scope, hscope, hs⟩
      refine hpicked.map fun picked h f hf ↦ ?_
      obtain ⟨found, hfound, hf⟩ := List.mem_flatten.mp (mem_of_firstOccurrences hf)
      exact h found hfound f hf
  · refine .of_ok fun f hf ↦ ?_
    have hmem : f ∈ find.foundIn segment allowSelf scopes := by
      split at hf
      · exact List.mem_of_mem_take hf
      · exact mem_of_firstOccurrences hf
    rw [← map_spot_foundIn]
    exact List.mem_map_of_mem hmem

theorem Leads.segmentAnswer (hleads : find.Leads set target segment)
    (hscopes : ∀ s ∈ scopes, set s) (allowSelf : Bool) :
    Yields (find.segmentAnswer segment allowSelf scopes)
      fun found ↦ ∀ f ∈ found, target f.spot := by
  intro found h f hf
  obtain ⟨scope, hscope, hs⟩ :=
    List.mem_flatMap.mp (yields_segmentAnswer find segment allowSelf scopes found h f hf)
  exact hleads allowSelf scope (hscopes scope hscope) f.spot hs

theorem StaysIn.of_mem_foundIn (hstays : find.StaysIn set segment) (hscopes : ∀ s ∈ scopes, set s)
    (hf : f ∈ find.foundIn segment allowSelf scopes) : set f.spot :=
  Leads.of_mem_foundIn hstays hscopes hf

theorem StaysIn.segmentAnswer (hstays : find.StaysIn set segment) (hscopes : ∀ s ∈ scopes, set s)
    (allowSelf : Bool) :
    Yields (find.segmentAnswer segment allowSelf scopes) fun found ↦ ∀ f ∈ found, set f.spot :=
  Leads.segmentAnswer hstays hscopes allowSelf

/-- What segments find one below the other was found from the first scopes, if something is looked
for at all. -/
theorem Leads.segmentsAnswer (hleads : ∀ segment ∈ segments, find.Leads set target segment)
    (htarget : ∀ s, target s → set s) (hscopes : ∀ s ∈ scopes, set s) (childSearch : Bool)
    (found : List Found) :
    Yields (find.segmentsAnswer childSearch found scopes segments)
      fun result ↦ ∀ f ∈ result, f ∈ found ∨ target f.spot := by
  induction segments generalizing scopes found with
  | nil => exact .of_ok fun f hf ↦ Or.inl hf
  | cons segment rest ih =>
    have hsegment := (hleads segment List.mem_cons_self).segmentAnswer hscopes
      (segment.isFirst && !childSearch)
    rw [Finder.segmentsAnswer]
    refine hsegment.bind fun found' hfound ↦ ?_
    split
    · exact .of_ok nofun
    · -- the matches are the scopes of the rest
      have hset : ∀ s ∈ found'.map Found.spot, set s := by
        intro s hs
        obtain ⟨f, hf, rfl⟩ := List.mem_map.mp hs
        exact htarget f.spot (hfound f hf)
      intro result hresult f hf
      refine Or.inr ?_
      exact (ih (fun segment hmem ↦ hleads segment (List.mem_cons_of_mem _ hmem)) hset found'
        result hresult f hf).elim (hfound f) id

theorem yields_finish_sublist (plan : QueryPlan) (found : List Found) :
    Yields (finish plan found) fun final ↦ final.Sublist found := by
  rw [finish]
  split
  · split
    · exact .of_ok (List.nil_sublist found)
    · rw [pickFinal]
      refine Yields.bind (P := fun _ ↦ True) (fun _ _ ↦ trivial) fun chosen _ ↦ .of_ok ?_
      exact List.filter_sublist.trans List.filter_sublist
  · exact .of_ok (.refl found)

theorem yields_finish (plan : QueryPlan) (found : List Found) :
    Yields (finish plan found) fun final ↦ final ⊆ found := fun final h ↦
  (yields_finish_sublist plan found final h).subset

/-- Where a plan that named a page, or none, starts. -/
def startsOf (scopes : List Spot) : Option Spot → List Spot
  | some page => [page]
  | none => scopes

/-- A plan may start in these scopes. -/
def MayStart (pages scopes starts : List Spot) : Prop :=
  starts = scopes ∨ ∃ page ∈ pages, starts = [page]

/-- What a plan finds is the page that it names, or was found from there or from the starting
scopes. -/
theorem Leads.answer {sets targets : List Spot → Spot → Prop}
    (hleads : ∀ starts, MayStart pages scopes starts →
      ∀ segment ∈ plan.segments, find.Leads (sets starts) (targets starts) segment)
    (htargets : ∀ starts s, targets starts s → sets starts s)
    (hsets : ∀ starts, MayStart pages scopes starts → ∀ s ∈ starts, sets starts s) :
    Yields (find.answer pages scopes plan) fun r ↦
      ∀ f ∈ r.1, r.2 = some f.spot ∨ targets (startsOf scopes r.2) f.spot := by
  rw [Finder.answer]
  split
  · rename_i directive rest _ hsegments
    split
    · exact .of_ok nofun
    · rename_i page hpage
      have hstart : MayStart pages scopes [page] :=
        Or.inr ⟨page, List.mem_of_find?_eq_some hpage, rfl⟩
      have hrest := Leads.segmentsAnswer
        (fun segment h ↦ hleads [page] hstart segment
          (hsegments ▸ List.mem_cons_of_mem directive h))
        (htargets [page]) (hsets [page] hstart) plan.childSearch [⟨page, page.path⟩]
      refine hrest.bind fun found hfound ↦ ?_
      refine (yields_finish plan found).bind fun final hfinal ↦ .of_ok fun f hf ↦ ?_
      refine (hfound f (hfinal hf)).imp_left fun h ↦ ?_
      rw [List.mem_singleton.mp h]
  · have hall := Leads.segmentsAnswer (hleads scopes (Or.inl rfl)) (htargets scopes)
      (hsets scopes (Or.inl rfl)) plan.childSearch []
    refine hall.bind fun found hfound ↦ ?_
    refine (yields_finish plan found).bind fun final hfinal ↦ .of_ok fun f hf ↦ ?_
    exact (hfound f (hfinal hf)).imp_left fun h ↦ absurd h List.not_mem_nil

/-! ## Comparing two ways to search -/

private theorem segmentAnswer_congr (hagrees : find.AgreesOn other set segment)
    (hscopes : ∀ s ∈ scopes, set s) (allowSelf : Bool) :
    find.segmentAnswer segment allowSelf scopes = other.segmentAnswer segment allowSelf scopes := by
  have heq : ∀ scope ∈ scopes, find segment allowSelf scope = other segment allowSelf scope :=
    fun scope hscope ↦ hagrees allowSelf scope (hscopes scope hscope)
  have hpick : ∀ pick, scopes.mapM (find.pickIn segment pick allowSelf) =
      scopes.mapM (other.pickIn segment pick allowSelf) := fun pick ↦
    mapM_congr fun scope hscope ↦ by rw [pickIn, pickIn, heq scope hscope]
  have hfound : find.foundIn segment allowSelf scopes = other.foundIn segment allowSelf scopes :=
    List.flatMap_congr fun scope hscope ↦ by rw [heq scope hscope]
  rw [segmentAnswer, segmentAnswer, List.flatMap_congr heq, hfound]
  simp only [hpick]

private theorem segmentsAnswer_congr (hstays : ∀ segment ∈ segments, find.StaysIn set segment)
    (hagrees : ∀ segment ∈ segments, find.AgreesOn other set segment)
    (hscopes : ∀ s ∈ scopes, set s) :
    find.segmentsAnswer childSearch found scopes segments =
      other.segmentsAnswer childSearch found scopes segments := by
  induction segments generalizing found scopes with
  | nil => rfl
  | cons segment rest ih =>
    have hsegment := segmentAnswer_congr (hagrees segment List.mem_cons_self) hscopes
      (segment.isFirst && !childSearch)
    have hfound := (hstays segment List.mem_cons_self).segmentAnswer
      hscopes (segment.isFirst && !childSearch)
    rw [segmentsAnswer, segmentsAnswer, ← hsegment]
    cases hanswer : find.segmentAnswer segment (segment.isFirst && !childSearch) scopes with
    | error fault => rfl
    | ok found' =>
      -- the matches are the scopes of the rest, and they are in the set again
      have hset : ∀ s ∈ found'.map Found.spot, set s := by
        intro s hs
        obtain ⟨f, hf, rfl⟩ := List.mem_map.mp hs
        exact hfound found' hanswer f hf
      have hrest : find.segmentsAnswer childSearch found' (found'.map Found.spot) rest =
          other.segmentsAnswer childSearch found' (found'.map Found.spot) rest := ih
        (fun segment hmem ↦ hstays segment (List.mem_cons_of_mem _ hmem))
        (fun segment hmem ↦ hagrees segment (List.mem_cons_of_mem _ hmem)) hset
      change (if found'.isEmpty then pure [] else _) = (if found'.isEmpty then pure [] else _)
      rw [hrest]

/-- **Two ways to search give one answer** if they find the same matches from every node that can
become a scope. -/
theorem answer_congr (set : Spot → Prop)
    (hstays : ∀ segment ∈ plan.segments, find.StaysIn set segment)
    (hagrees : ∀ segment ∈ plan.segments, find.AgreesOn other set segment)
    (hpages : ∀ s ∈ pages, set s) (hscopes : ∀ s ∈ scopes, set s) :
    find.answer pages scopes plan = other.answer pages scopes plan := by
  rw [answer, answer]
  split
  · rename_i directive rest _ hsegments
    rw [hsegments] at hstays hagrees
    split
    · rfl
    · rename_i page hpage
      have hpage : ∀ s ∈ [page], set s := by
        simpa using hpages page (List.mem_of_find?_eq_some hpage)
      rw [segmentsAnswer_congr (fun segment hmem ↦ hstays segment (List.mem_cons_of_mem _ hmem))
        (fun segment hmem ↦ hagrees segment (List.mem_cons_of_mem _ hmem)) hpage]
  · rw [segmentsAnswer_congr hstays hagrees hscopes]

end Finder

end Evaluation

end SceneSearch
