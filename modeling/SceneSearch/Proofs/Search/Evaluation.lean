import SceneSearch.Proofs.Search.Events
import SceneSearch.Proofs.Search.Finder

/-!
# Evaluation comes to the answer

An evaluation goes on with lookups that it remembers by the id of a scope and the kinds. On a
labelled document an id belongs to one node, so a remembered lookup can only be the one that would
be made again: that is `Right`, the invariant of an evaluation. `Finds` says of a part of a search
that from right lookups it comes to a result, and to right lookups again; there is one rule for each
way in which parts are put together, and one statement for each part. They add up to
`result_trace`: a search comes to the answer of its host, whatever the capacity of the lookups.
-/

namespace SceneSearch

namespace Evaluation

variable {α β : Type} {host : Host} {segment : SegmentPlan} {matcher : NameMatcher}
  {bulk first allowSelf : Bool} {scope : Spot} {scopes : List Spot}

/-! ## Parts of a search -/

/-- Every remembered lookup is the lookup of the node with its id. -/
def Right (host : Host) (pools : Pools) : Prop :=
  ∀ id kinds found, ((id, kinds), some found) ∈ pools.entries →
    ∀ scope, host.document.Has scope → scope.id = id → found = host.lookup scope kinds

/-- A part of a search comes to a result and keeps remembered lookups right. -/
def Finds (host : Host) (x : Search α) (result : Except SearchFault α) : Prop :=
  ∀ pools, Right host pools →
    ∃ after, Right host after ∧ (x pools).result = result.map fun a ↦ (a, after)

theorem finds_pure (a : α) : Finds host (pure a) (.ok a) := fun pools h ↦ ⟨pools, h, rfl⟩

theorem Finds.of_eq {x : Search α} {r r' : Except SearchFault α} (h : Finds host x r)
    (heq : r = r') : Finds host x r' := heq ▸ h

theorem Finds.bind {x : Search α} {f : α → Search β} {r : Except SearchFault α}
    {g : α → Except SearchFault β} (hx : Finds host x r)
    (hf : ∀ a, r = .ok a → Finds host (f a) (g a)) : Finds host (x >>= f) (r >>= g) := by
  intro pools hright
  obtain ⟨after, hafter, hresult⟩ := hx pools hright
  rw [bind_apply, Trace.result_andThen, hresult]
  cases r with
  | error fault => exact ⟨pools, hright, rfl⟩
  | ok a => exact hf a rfl after hafter

theorem Finds.bind_ok {x : Search α} {f : α → Search β} {a : α} {r : Except SearchFault β}
    (hx : Finds host x (.ok a)) (hf : Finds host (f a) r) : Finds host (x >>= f) r := by
  intro pools hright
  obtain ⟨after, hafter, hresult⟩ := hx pools hright
  rw [bind_apply, Trace.result_andThen, hresult]
  exact hf after hafter

theorem Finds.bind_pure {x : Search α} {r : Except SearchFault α} (hx : Finds host x r)
    (f : α → β) : Finds host (x >>= fun a ↦ pure (f a)) (r.map f) := by
  refine (hx.bind fun a _ ↦ finds_pure (f a)).of_eq ?_
  cases r <;> rfl

theorem Finds.map {x : Search α} {r : Except SearchFault α} (hx : Finds host x r) (f : α → β) :
    Finds host (f <$> x) (r.map f) := by
  rw [map_eq_pure_bind]
  exact hx.bind_pure f

theorem finds_follow {t : Trace α} {r : Except SearchFault α} (h : t.result = r) :
    Finds host (follow t) r := by
  intro pools hright
  refine ⟨pools, hright, ?_⟩
  rw [follow, Trace.result_andThen, h]
  cases r <;> rfl

theorem finds_liftExcept (r : Except SearchFault α) : Finds host (liftExcept r) r :=
  finds_follow rfl

theorem finds_emit (e : Event) : Finds host (emit e) (.ok ()) := finds_follow rfl

theorem finds_mapM {f : α → Search β} {g : α → Except SearchFault β} {items : List α}
    (h : ∀ a ∈ items, Finds host (f a) (g a)) : Finds host (items.mapM f) (items.mapM g) := by
  induction items with
  | nil => exact finds_pure []
  | cons a rest ih =>
    rw [List.mapM_cons, List.mapM_cons]
    exact (h a List.mem_cons_self).bind fun b _ ↦
      (ih fun c hc ↦ h c (List.mem_cons_of_mem a hc)).bind fun bs _ ↦ finds_pure (b :: bs)

/-! ## Remembered lookups -/

theorem Right.get {pools : Pools} (h : Right host pools) (key : PoolKey) :
    Right host (pools.get key).2 := fun id kinds found hmem ↦
  h id kinds found (LruCache.mem_of_mem_get hmem)

theorem Right.put {pools : Pools} (h : Right host pools) (hh : host.Labelled)
    (hs : host.document.Has scope) (kinds : List NodeKind) :
    Right host (pools.put (scope.id, kinds) (some (host.lookup scope kinds))) := by
  intro id kinds' found hmem other hother hid
  rcases LruCache.mem_of_mem_put hmem with heq | hmem
  · obtain ⟨⟨rfl, rfl⟩, rfl⟩ :
        (id = scope.id ∧ kinds' = kinds) ∧ found = host.lookup scope kinds := by simpa using heq
    rw [hh.document.eq_of_id hother hs hid]
  · exact h id kinds' found hmem other hother hid

theorem right_of_entries_eq_nil {pools : Pools} (h : pools.entries = []) : Right host pools := by
  intro id kinds found hmem
  rw [h] at hmem
  cases hmem

theorem finds_pool (hh : host.Labelled) (hs : host.document.Has scope) (kinds : List NodeKind) :
    Finds host (pool host scope kinds) (.ok (host.lookup scope kinds)) := by
  intro pools hright
  rw [pool]
  split
  · rename_i remembered after hget
    have hafter := hright.get (scope.id, kinds)
    -- what is remembered under the id of the scope is the lookup of the scope
    have hmem := LruCache.mem_of_get (congrArg Prod.fst hget)
    rw [hget] at hafter
    exact ⟨after, hafter, congrArg _ (congrArg (·, after)
      (hright scope.id kinds remembered hmem scope hs rfl))⟩
  · rename_i after hget
    have hafter := hright.get (scope.id, kinds)
    rw [hget] at hafter
    refine ⟨_, hafter.put hh hs kinds, ?_⟩
    rw [Trace.result_andThen, Host.findAll, Host.result_lookBelow]
    rfl

/-! ## Matches of one scope -/

theorem result_visitAmong (keep : Spot → Bool) (kept spots : List Spot) :
    (visitAmong first keep kept spots).result =
      .ok (kept.reverse ++ Host.asked first (spots.filter keep)) := by
  induction spots generalizing kept with
  | nil => simp [visitAmong, Trace.result, Host.asked]
  | cons s rest ih =>
    by_cases hk : keep s <;> cases first <;>
      simp [visitAmong, hk, ih, Trace.result, Host.asked]

theorem length_ownMatches_le (segment : SegmentPlan) (matcher : NameMatcher) (scope : Spot) :
    (ownMatches segment matcher scope).length ≤ 1 := by
  refine Nat.le_trans (List.length_filter_le _ _) ?_
  split <;> simp

theorem finds_lookAt :
    Finds host (follow (lookAt first segment matcher scope))
      (.ok (ownMatches segment matcher scope)) := by
  have hresult : (lookAt first segment matcher scope).result =
      .ok (Host.asked first (ownMatches segment matcher scope)) := result_visitAmong ..
  refine finds_follow ?_
  rw [hresult, Host.asked, List.take_of_length_le (length_ownMatches_le segment matcher scope)]
  split <;> rfl

theorem finds_scanBelow (hh : host.Labelled) (hs : host.document.Has scope)
    (hbulk : first = true → bulk = false) :
    Finds host (scanBelow bulk host first segment matcher scope)
      (.ok (Host.asked first (matchesBelow segment matcher scope bulk host))) := by
  rw [scanBelow, matchesBelow]
  split
  · refine finds_follow ?_
    rw [lookAtChildren, Trace.result_andThen]
    simp only [Host.childrenOf, Trace.result, result_visitAmong]
    rfl
  · cases hkinds : bulkKinds? bulk segment with
    | none => exact finds_follow (Host.result_lookBelow ..)
    | some kinds =>
      -- who asks for the first match only makes no bulk lookup
      have hfirst : first = false := by
        cases first with
        | false => rfl
        | true => simp [bulkKinds?, hbulk rfl] at hkinds
      rw [hfirst]
      exact (finds_pool hh hs kinds).map _

theorem finds_scan (hh : host.Labelled) (hs : host.document.Has scope)
    (hbulk : first = true → bulk = false) :
    Finds host (scan bulk host first segment (.ofQuery segment.nameQuery) allowSelf scope)
      (.ok (Host.asked first (finder bulk host segment allowSelf scope))) := by
  have hrest : ∀ own : List Spot, own.length ≤ 1 → Finds host
      (if first && !own.isEmpty then pure own
        else do
          let below ← scanBelow bulk host first segment (.ofQuery segment.nameQuery) scope
          pure (own ++ below))
      (.ok (Host.asked first (own ++
        matchesBelow segment (.ofQuery segment.nameQuery) scope bulk host))) := by
    intro own hlength
    -- the scope itself is one match at most: if that is enough, it is the first one of all
    split
    · rename_i hstop
      simp only [Bool.and_eq_true, Bool.not_eq_true', List.isEmpty_eq_false_iff] at hstop
      obtain ⟨s, rfl⟩ : ∃ s, own = [s] := by
        rw [← List.length_eq_one_iff]
        have := List.length_pos_iff.mpr hstop.2
        omega
      refine (finds_pure [s]).of_eq ?_
      rw [hstop.1]
      rfl
    · rename_i hgo
      refine ((finds_scanBelow hh hs hbulk).bind fun below _ ↦ finds_pure (own ++ below)).of_eq ?_
      cases first with
      | false => rfl
      | true =>
        obtain rfl : own = [] := by simpa using hgo
        rfl
  rw [scan, finder]
  split
  · exact finds_lookAt.bind_ok (hrest _ (length_ownMatches_le ..))
  · exact hrest [] (by simp)

theorem finds_scan_false (hh : host.Labelled) (hs : host.document.Has scope) :
    Finds host (scan bulk host false segment (.ofQuery segment.nameQuery) allowSelf scope)
      (.ok (finder bulk host segment allowSelf scope)) :=
  finds_scan hh hs (by simp)

/-! ## Matches of all scopes -/

theorem finder_of_stopAtFirst (h : segment.stopAtFirst = true) :
    finder bulk host segment = finder false host segment := by
  have hkinds : ∀ bulk, bulkKinds? bulk segment = none := by simp [bulkKinds?, h]
  funext allowSelf scope
  simp only [finder, matchesBelow, hkinds]

theorem finds_check : Finds host check (.ok ()) := finds_emit _

private theorem finds_findFirst (hh : host.Labelled) (hscopes : ∀ s ∈ scopes, host.document.Has s) :
    Finds host (findFirst host segment (.ofQuery segment.nameQuery) allowSelf scopes)
      (.ok (((finder false host).foundIn segment allowSelf scopes).take 1)) := by
  induction scopes with
  | nil => exact finds_pure []
  | cons scope rest ih =>
    have hscan : Finds host
        (scan false host true segment (.ofQuery segment.nameQuery) allowSelf scope)
        (.ok (Host.asked true (finder false host segment allowSelf scope))) :=
      finds_scan hh (hscopes scope List.mem_cons_self) fun _ ↦ rfl
    refine finds_check.bind_ok (hscan.bind_ok ?_)
    rw [Finder.foundIn, List.flatMap_cons, Host.asked, if_pos rfl]
    cases finder false host segment allowSelf scope with
    | nil => exact ih fun s hs ↦ hscopes s (List.mem_cons_of_mem scope hs)
    | cons s more => exact finds_pure _

theorem finds_scanAll (hh : host.Labelled) (hscopes : ∀ s ∈ scopes, host.document.Has s) :
    Finds host (scanAll bulk host segment (.ofQuery segment.nameQuery) allowSelf scopes)
      (.ok (scopes.map fun s ↦ (s, finder bulk host segment allowSelf s))) := by
  have hgroups : scopes.mapM (fun s ↦ (.ok (s, finder bulk host segment allowSelf s) :
      Except SearchFault (Spot × List Spot))) =
      .ok (scopes.map fun s ↦ (s, finder bulk host segment allowSelf s)) := List.mapM_pure
  rw [← hgroups]
  exact finds_mapM fun s hs ↦ finds_check.bind_ok
    ((finds_scan_false hh (hscopes s hs)).bind_ok (finds_pure _))

private theorem finds_pickPerScope (hh : host.Labelled)
    (hscopes : ∀ s ∈ scopes, host.document.Has s)
    (pick : RankPick) :
    Finds host
      (pickPerScope bulk host segment (.ofQuery segment.nameQuery) pick allowSelf scopes)
      ((scopes.mapM ((finder bulk host).pickIn segment pick allowSelf)).map fun picked ↦
        distinct picked.flatten) := by
  refine Finds.bind_pure (finds_mapM fun s hs ↦ ?_) _
  exact finds_check.bind_ok ((finds_scan_false hh (hscopes s hs)).bind_ok
    ((finds_liftExcept _).bind_pure _))

theorem finds_evaluateSegment (hh : host.Labelled) (hscopes : ∀ s ∈ scopes, host.document.Has s) :
    Finds host (evaluateSegment bulk host segment allowSelf scopes)
      ((finder bulk host).segmentAnswer segment allowSelf scopes) := by
  rw [evaluateSegment, Finder.segmentAnswer]
  cases segment.pick with
  | some pick =>
    dsimp only
    cases pick.scope with
    | overall =>
      refine (finds_scanAll hh hscopes).bind_ok ?_
      rw [List.flatMap_map]
      exact (finds_liftExcept _).bind_pure _
    | perScope => exact finds_pickPerScope hh hscopes pick
  | none =>
    dsimp only
    split
    · rename_i hfirst
      rw [Finder.foundIn, finder_of_stopAtFirst hfirst]
      exact finds_findFirst hh hscopes
    · refine (finds_scanAll hh hscopes).bind_ok ?_
      rw [List.flatMap_map]
      exact finds_pure _

/-! ## Plans -/

private theorem finds_evaluateSegments (hh : host.Labelled) {childSearch : Bool}
    {found : List Found}
    {segments : List SegmentPlan} (hscopes : ∀ s ∈ scopes, host.document.Has s) :
    Finds host (evaluateSegments bulk host childSearch found scopes segments)
      ((finder bulk host).segmentsAnswer childSearch found scopes segments) := by
  induction segments generalizing found scopes with
  | nil => exact finds_pure found
  | cons segment rest ih =>
    refine finds_check.bind_ok ((finds_evaluateSegment hh hscopes).bind fun found' hfound ↦ ?_)
    refine (finds_emit _).bind_ok ?_
    have hset := hh.document.finder_staysIn.segmentAnswer hscopes _ found' hfound
    split
    · exact finds_pure []
    · refine ih fun s hs ↦ ?_
      obtain ⟨f, hf, rfl⟩ := List.mem_map.mp hs
      exact hset f hf

private theorem finds_findPage (matcher : NameMatcher) (pages : List Spot) :
    Finds host (findPage matcher pages)
      (.ok (pages.find? fun page ↦ matcher.accepts page.name)) := by
  induction pages with
  | nil => exact finds_pure none
  | cons page rest ih =>
    refine (finds_emit _).bind_ok ?_
    rw [List.find?_cons]
    cases matcher.accepts page.name with
    | true => exact finds_pure (some page)
    | false => exact ih

private theorem finds_evaluatePlan (hh : host.Labelled) (plan : QueryPlan) :
    Finds host (evaluatePlan bulk host plan) (host.answer bulk plan) := by
  -- with and without a page directive the segments are evaluated and finished in the same way
  have hsegments : ∀ (found : List Found) (scopes : List Spot) (segments : List SegmentPlan)
      (page : Option Spot), (∀ s ∈ scopes, host.document.Has s) →
      Finds host
        (evaluateSegments bulk host plan.childSearch found scopes segments >>= fun found ↦
          liftExcept (finish plan found) >>= fun found ↦ pure (found, page))
        ((finder bulk host).segmentsAnswer plan.childSearch found scopes segments >>= fun found ↦
          finish plan found >>= fun found ↦ pure (found, page)) := by
    intro found scopes segments page hscopes
    exact (finds_evaluateSegments hh hscopes).bind fun found _ ↦
      (finds_liftExcept (finish plan found)).bind fun found _ ↦ finds_pure (found, page)
  have hscopes : ∀ s ∈ host.scopes plan.childSearch, host.document.Has s := fun s hs ↦
    hh.has_of_mem_scopes hs
  rw [evaluatePlan, Host.answer, Finder.answer]
  cases plan.hasPageDirective with
  | false => exact hsegments _ _ _ _ hscopes
  | true =>
    cases plan.segments with
    | nil => exact hsegments _ _ _ _ hscopes
    | cons directive rest =>
      refine (finds_findPage _ _).bind_ok ?_
      dsimp only
      cases hpage : host.document.pages.find? fun page ↦
          (NameMatcher.ofQuery directive.nameQuery).accepts page.name with
      | none => exact finds_pure _
      | some page =>
        have hmem := Document.holds_of_mem_pages (List.mem_of_find?_eq_some hpage)
        refine hsegments _ _ _ _ fun s hs ↦ ?_
        obtain rfl : s = page := by simpa using hs
        exact hmem.reaches

end Evaluation

/-- **A search comes to the answer of its host**, however many bulk lookups it remembers. -/
theorem QueryPlan.result_trace {host : Host} {settings : Evaluation.Settings} (hh : host.Labelled)
    (hpools : settings.pools.entries = []) (plan : QueryPlan) :
    (plan.trace host settings).result =
      (host.answer settings.bulk plan).map fun r ↦ { results := r.1, page := r.2 } := by
  obtain ⟨after, -, hresult⟩ := Evaluation.finds_evaluatePlan hh plan settings.pools
    (Evaluation.right_of_entries_eq_nil hpools)
  rw [trace, Trace.result_andThen, hresult]
  cases host.answer settings.bulk plan <;> rfl

/-! ## What is read of a host -/

namespace Evaluation

variable {host other : Host} {bulk first allowSelf : Bool} {scopes : List Spot}

/-- The matches of a scope depend on the flag of the host only, and on no mark of the segment that
says it is first. -/
theorem scan_congr (h : other.skipsInstanceChildren = host.skipsInstanceChildren)
    (segment : SegmentPlan) (isFirst : Bool) :
    scan bulk other first { segment with isFirst } = scan bulk host first segment := by
  have hbelow : other.lookBelow = host.lookBelow := by
    funext first prune keep s
    simp only [Host.lookBelow, Host.childrenOf, h]
  have hchildren : other.childrenOf = host.childrenOf := by
    funext s
    simp only [Host.childrenOf, h]
  have hpool : pool other = pool host := by
    funext scope kinds pools
    simp only [pool, Host.findAll, hbelow]
  funext matcher allowSelf scope
  simp only [scan, scanBelow, lookAt, lookAtChildren, lookThrough, bulkKinds?, fits, hbelow,
    hchildren, hpool]

theorem evaluateSegment_congr (h : other.skipsInstanceChildren = host.skipsInstanceChildren)
    (segment : SegmentPlan) (isFirst : Bool) :
    evaluateSegment bulk other { segment with isFirst } allowSelf scopes =
      evaluateSegment bulk host segment allowSelf scopes := by
  have hfirst : findFirst other { segment with isFirst } = findFirst host segment := by
    funext matcher allowSelf scopes
    induction scopes with
    | nil => rfl
    | cons scope rest ih => rw [findFirst, findFirst, scan_congr h, ih]
  simp only [evaluateSegment, pickOverall, pickPerScope, matchAll, scanAll, scan_congr h, hfirst]

private theorem evaluateSegments_congr
    (h : other.skipsInstanceChildren = host.skipsInstanceChildren)
    (childSearch : Bool) (found : List Found) (scopes : List Spot) (segments : List SegmentPlan) :
    evaluateSegments bulk other childSearch found scopes segments =
      evaluateSegments bulk host childSearch found scopes segments := by
  induction segments generalizing found scopes with
  | nil => rfl
  | cons segment rest ih =>
    have hsegment : evaluateSegment bulk other segment (segment.isFirst && !childSearch) scopes =
        evaluateSegment bulk host segment (segment.isFirst && !childSearch) scopes :=
      evaluateSegment_congr h segment segment.isFirst
    simp only [evaluateSegments, hsegment, ih]

end Evaluation

/-- What the viewport was moved to and how ids are indexed makes no difference to an evaluation. -/
theorem QueryPlan.trace_congr {host other : Host}
    (hscene : other.document.scene = host.document.scene)
    (hpage : other.currentPage = host.currentPage) (hselection : other.selection = host.selection)
    (hskips : other.skipsInstanceChildren = host.skipsInstanceChildren) (plan : QueryPlan)
    (settings : Evaluation.Settings) : plan.trace other settings = plan.trace host settings := by
  have hpages : other.document.pages = host.document.pages := by
    rw [Document.pages, Document.pages, Document.root, Document.root, hscene]
  simp only [trace, Evaluation.evaluatePlan, Evaluation.evaluateSegments_congr hskips, Host.scopes,
    hpages, hpage, hselection]

end SceneSearch
