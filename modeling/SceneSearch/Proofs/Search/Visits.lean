import SceneSearch.Proofs.Search.ResultOrder

/-!
# Counting visits

How many nodes a search visits can be counted without running it: visits are events, so those of a
part of a search and of what follows it add up, and an undisturbed run counts all of them. Below a
scope every node that is gone through is one visit. These are the candidates of the scope, all of
them or those up to the first match; no two candidates of scopes that are apart are the same node.

Remembered lookups are what makes the count of a whole search hard to say: a lookup that is
remembered visits nothing. So visits are counted against the nodes that were seen at any time.
`Surveys` says of a part of a search that afterwards certain nodes are seen, and that it visited as
many nodes as it saw for the first time, or more. What is remembered was seen before; that is
`Covered`, the invariant.
-/

namespace SceneSearch

open Evaluation

/-! ## Visits of a trace -/

namespace Trace

variable {α β : Type} {e : Event}

@[simp] theorem visits_visit (next : Unit → Trace α) :
    (step .visit next).visits = (next ()).visits + 1 := List.count_cons_self

theorem visits_step_of_ne (h : e ≠ .visit) (next : Unit → Trace α) :
    (step e next).visits = (next ()).visits := List.count_cons_of_ne h

@[simp] theorem visits_request (hides : Bool) (next : Unit → Trace α) :
    (step (.request hides) next).visits = (next ()).visits :=
  visits_step_of_ne (e := .request hides) nofun next

theorem visits_andThen {t : Trace α} {a : α} (h : t.result = .ok a) (f : α → Trace β) :
    (t.andThen f).visits = t.visits + (f a).visits := by
  rw [visits, events_andThen, h]
  exact List.count_append

theorem visits_andThen_of_silent {f : α → Trace β} (h : ∀ a, (f a).visits = 0) (t : Trace α) :
    (t.andThen f).visits = t.visits := by
  cases hresult : t.result with
  | error fault => rw [visits, events_andThen, hresult, visits]
  | ok a => rw [visits_andThen hresult, h, Nat.add_zero]

end Trace

/-! ## Runs -/

namespace Monitor

variable {m : Monitor}

theorem visited_step_visit (hcadence : m.watch.yieldEvery ≠ 0) :
    (m.step .visit).2.watch.visited = m.watch.visited + 1 := by
  have htell : ∀ w : Watch, w.tell.visited = w.visited := by
    intro w
    rw [Watch.tell]
    split <;> rfl
  rw [step, Watch.visit_eq hcadence]
  split
  · exact htell _
  · rfl

theorem visited_step_of_ne {e : Event} (h : e ≠ .visit) :
    (m.step e).2.watch.visited = m.watch.visited := by
  cases e with
  | visit => exact absurd rfl h
  | request hides =>
    simp only [step, request]
    split
    · rfl
    · split <;> rfl
  | _ => rfl

/-- **A calm run counts every visit.** -/
theorem Calm.visited_run {α : Type} (hm : m.Calm) (hcadence : m.watch.yieldEvery ≠ 0)
    (t : Trace α) : (m.run t).2.watch.visited = m.watch.visited + t.visits := by
  induction t generalizing m with
  | done result => rfl
  | step e next ih =>
    have hstep := calmed_step hcadence e
    rw [hm.calmed_eq] at hstep
    have hcalm := (m.step e).2.calm_calmed
    have hnext : (m.step e).2.watch.yieldEvery ≠ 0 := yieldEvery_step m e ▸ hcadence
    have hrest := ih () hcalm hnext
    rw [run, hstep]
    refine hrest.trans ?_
    change (m.step e).2.watch.visited + (next ()).visits = _
    by_cases he : e = .visit
    · subst he
      rw [visited_step_visit hcadence, Trace.visits_visit]
      omega
    · rw [visited_step_of_ne he, Trace.visits_step_of_ne he]

end Monitor

theorem Engine.visited_search_new {host : Host} {query : String} {plan : QueryPlan} {m : Monitor}
    {r : Response} (hm : m.Calm) (hplan : parseQuery query = .ok plan)
    (hne : plan.isEmpty = false) (hsearch : (Engine.new.search host query m).1 = .ok r) :
    r.visited = (plan.trace (host.exposed plan.modifiers.includesHidden)).visits := by
  have hcalm : ((begin plan m).note .debug ("Query plan: " ++ plan.describe)).Calm :=
    ⟨hm.cancelled, hm.hook, hm.failure⟩
  have hcount := hcalm.visited_run (yieldEvery_begin plan m)
    (plan.trace (host.exposed plan.modifiers.includesHidden) Engine.new.settings)
  rw [outcome_search hm hplan, hne, recalled_new] at hsearch
  rw [if_neg Bool.false_ne_true] at hsearch
  dsimp only at hsearch
  rw [evaluate_eq] at hsearch
  split at hsearch
  · cases hsearch
  · rename_i after hrun
    obtain rfl := Except.ok.inj hsearch
    rw [hrun] at hcount
    exact hcount.trans (Nat.zero_add _)

/-! ## Visits below a scope -/

/-- What is gone through of some nodes: all of them, or with `first` those up to the first one that
`keep` accepts. -/
def goneThrough (first : Bool) (keep : Spot → Bool) : List Spot → List Spot
  | [] => []
  | s :: rest => s :: if first && keep s then [] else goneThrough first keep rest

section

variable {first : Bool} {keep : Spot → Bool} {spots : List Spot} {s : Spot}

@[simp] theorem goneThrough_false (keep : Spot → Bool) (spots : List Spot) :
    goneThrough false keep spots = spots := by
  induction spots with
  | nil => rfl
  | cons s rest ih =>
    rw [goneThrough, ih]
    rfl

theorem goneThrough_sublist (first : Bool) (keep : Spot → Bool) (spots : List Spot) :
    (goneThrough first keep spots).Sublist spots := by
  induction spots with
  | nil => exact .refl []
  | cons s rest ih =>
    rw [goneThrough]
    split
    · exact (List.nil_sublist rest).cons_cons s
    · exact ih.cons_cons s

theorem exists_goneThrough_eq (h : s ∈ (spots.filter keep).head?) :
    ∃ before, goneThrough true keep spots = before ++ [s] := by
  induction spots with
  | nil => cases h
  | cons t rest ih =>
    rw [goneThrough, Bool.true_and]
    by_cases hkeep : keep t = true
    · rw [List.filter_cons_of_pos hkeep, List.head?_cons] at h
      obtain rfl := Option.some.inj h
      exact ⟨[], by rw [if_pos hkeep, List.nil_append]⟩
    · rw [List.filter_cons_of_neg hkeep] at h
      obtain ⟨before, hbefore⟩ := ih h
      exact ⟨t :: before, by rw [if_neg hkeep, hbefore, List.cons_append]⟩

theorem Evaluation.visits_visitAmong (first : Bool) (keep : Spot → Bool)
    (kept spots : List Spot) :
    (visitAmong first keep kept spots).visits = (goneThrough first keep spots).length := by
  induction spots generalizing kept with
  | nil => rfl
  | cons s rest ih =>
    rw [visitAmong, Trace.visits_visit, goneThrough, List.length_cons]
    dsimp only
    split
    · rfl
    · rw [ih]

theorem Host.visits_lookAmong (hides first : Bool) (prune keep : Spot → Bool) (steps : Nat)
    (kept waiting : List Spot) :
    (lookAmong hides first prune keep steps kept waiting).visits =
      (goneThrough first keep (walk (Spot.shownChildren (exposure hides))
        (fun a ↦ if prune a then none else some [a]) steps waiting)).length := by
  induction steps generalizing kept waiting with
  | zero => rfl
  | succ steps ih =>
    cases waiting with
    | nil => rfl
    | cons s waiting =>
      rw [lookAmong, walk]
      by_cases hprune : prune s = true
      · simp only [hprune, if_true, ih]
      · simp only [hprune, if_false, Trace.visits_visit, Bool.false_eq_true, List.singleton_append,
          goneThrough, List.length_cons]
        split
        · rfl
        · rw [Trace.visits_request, ih]

theorem Host.visits_lookBelow (host : Host) (first : Bool) (prune keep : Spot → Bool)
    (s : Spot) : (host.lookBelow first prune keep s).visits =
      (goneThrough first keep (s.descendants host.shown prune)).length :=
  visits_lookAmong ..

end

/-! ## Candidates -/

section

variable {r s t : Spot} {host : Host} {segment : SegmentPlan} {matcher : NameMatcher}
  {first allowSelf : Bool} {scope : Spot} {scopes : List Spot}

/-- The nodes below a scope that a segment tries. -/
def candidatesBelow (host : Host) (segment : SegmentPlan) (scope : Spot) : List Spot :=
  if segment.direct then scope.shownChildren host.shown
  else scope.descendants host.shown fun s ↦ segment.visibility.prunesHidden && !s.visible

/-- The nodes at and below a scope that a segment tries. -/
def candidates (host : Host) (segment : SegmentPlan) (allowSelf : Bool) (scope : Spot) :
    List Spot :=
  (if allowSelf && !scope.kind.isRootLike then [scope] else []) ++
    candidatesBelow host segment scope

theorem candidatesBelow_sublist (ht : r.IsTree) (hs : r.Reaches s) :
    (candidatesBelow host segment s).Sublist (s.descendants .everything fun _ ↦ false) := by
  rw [candidatesBelow]
  split
  · exact List.filter_sublist.trans (ht.children_sublist hs)
  · exact ht.descendants_sublist hs host.shown _

theorem holds_of_mem_candidatesBelow (ht : r.IsTree) (hs : r.Reaches s)
    (h : t ∈ candidatesBelow host segment s) : s.Holds t :=
  (ht.mem_descendants_everything_iff hs).mp ((candidatesBelow_sublist ht hs).subset h)

private theorem candidates_sublist (ht : r.IsTree) (hs : r.Reaches s) :
    (candidates host segment allowSelf s).Sublist s.subtree := by
  have hown : (if allowSelf && !s.kind.isRootLike then [s] else []).Sublist [s] := by
    split
    · exact .refl [s]
    · exact List.nil_sublist _
  rw [candidates, ht.subtree_eq hs]
  exact hown.append (candidatesBelow_sublist ht hs)

theorem pairwise_candidates (ht : r.IsTree) (hscopes : ∀ s ∈ scopes, r.Reaches s)
    (hapart : scopes.Pairwise Spot.Apart) :
    (scopes.flatMap (candidates host segment allowSelf)).Pairwise fun a b ↦ ¬b.Reaches a := by
  have hreaches : ∀ s ∈ scopes, ∀ t ∈ candidates host segment allowSelf s, s.Reaches t :=
    fun s hs t h ↦ (ht.mem_subtree_iff (hscopes s hs)).mp
      ((candidates_sublist ht (hscopes s hs)).subset h)
  refine List.pairwise_flatMap.mpr ⟨fun s hs ↦ ?_, hapart.imp_of_mem fun {s t} hs ht hst ↦ ?_⟩
  · exact (ht.pairwise_subtree (hscopes s hs)).sublist (candidates_sublist ht (hscopes s hs))
  · intro a ha b hb hba
    exact hst a (hreaches s hs a ha) ((hreaches t ht b hb).trans hba)

namespace Evaluation

/-- A look at a scope itself is a visit, unless the scope is a page or a document. -/
theorem visits_lookAt (first : Bool) (segment : SegmentPlan) (matcher : NameMatcher)
    (scope : Spot) :
    (lookAt first segment matcher scope).visits =
      (if !scope.kind.isRootLike then [scope] else []).length := by
  rw [lookAt, visits_visitAmong]
  cases scope.kind.isRootLike with
  | true => rfl
  | false =>
    refine congrArg (· + 1) ?_
    split <;> rfl

theorem visits_lookAtChildren (host : Host) (first : Bool) (segment : SegmentPlan)
    (matcher : NameMatcher) (scope : Spot) :
    (lookAtChildren host first segment matcher scope).visits =
      (goneThrough first
        (fun s ↦ fits segment matcher s && s.isEligible segment.visibility (some scope))
        (scope.shownChildren host.shown)).length := by
  rw [lookAtChildren, Host.childrenOf]
  exact (Trace.visits_request _ _).trans (visits_visitAmong ..)

end Evaluation

end

namespace Evaluation

variable {α β : Type} {host : Host} {segment : SegmentPlan} {matcher : NameMatcher}
  {allowSelf : Bool} {scope : Spot} {scopes seen nodes front back : List Spot} {k l : Nat}

/-! ## Parts of a search -/

theorem visits_bind {x : Search α} {f : α → Search β} {a : α} {pools pools' : Pools}
    (h : (x pools).result = .ok (a, pools')) :
    ((x >>= f) pools).visits = (x pools).visits + (f a pools').visits := Trace.visits_andThen h _

/-- A part of a search visits this many nodes. -/
def Visits (host : Host) (x : Search α) (k : Nat) : Prop :=
  ∀ pools, Right host pools → (x pools).visits = k

theorem visits_pure (a : α) : Visits host (pure a) 0 := fun _ _ ↦ rfl

theorem visits_follow (t : Trace α) : Visits host (follow t) t.visits := fun _ _ ↦
  Trace.visits_andThen_of_silent (fun _ ↦ rfl) t

theorem visits_emit {e : Event} (h : e ≠ .visit) : Visits host (emit e) 0 := fun _ _ ↦
  Trace.visits_step_of_ne h _

theorem Visits.bind {x : Search α} {f : α → Search β} {a : α} (h : Visits host x k)
    (hx : Finds host x (.ok a)) (hf : Visits host (f a) l) : Visits host (x >>= f) (k + l) := by
  intro pools hright
  obtain ⟨pools', hright', hresult⟩ := hx pools hright
  rw [visits_bind hresult, h pools hright, hf pools' hright']

theorem Visits.after {x : Search Unit} {f : Unit → Search β} (h : Visits host x 0)
    (hx : Finds host x (.ok ())) (hf : Visits host (f ()) l) : Visits host (x >>= f) l :=
  Nat.zero_add l ▸ h.bind hx hf

theorem Visits.last {x : Search α} {f : α → Search β} {a : α} (h : Visits host x k)
    (hx : Finds host x (.ok a)) (hf : Visits host (f a) 0) : Visits host (x >>= f) k :=
  h.bind hx hf

theorem visits_check : Visits host check 0 := visits_emit nofun

theorem visits_debug (message : String) : Visits host (debug message) 0 := visits_emit nofun

/-! ## Nodes seen -/

/-- Whatever a remembered lookup went through was seen. -/
def Covered (host : Host) (pools : Pools) (seen : List Spot) : Prop :=
  ∀ id kinds found, ((id, kinds), some found) ∈ pools.entries →
    ∀ scope, host.document.Has scope → scope.id = id →
      (scope.descendants host.shown fun _ ↦ false) ⊆ seen

/-- After a part of a search these nodes are seen, and what it saw for the first time are no more
nodes than it visited. -/
def Surveys (host : Host) (x : Search α) (nodes : List Spot) : Prop :=
  ∀ pools seen, Right host pools → Covered host pools seen →
    ∃ after, seen ⊆ after ∧ nodes ⊆ after ∧ after.length ≤ seen.length + (x pools).visits ∧
      ∀ a pools', (x pools).result = .ok (a, pools') → Covered host pools' after

theorem Covered.mono {pools : Pools} (h : Covered host pools seen) (hseen : seen ⊆ nodes) :
    Covered host pools nodes := fun id kinds found hmem scope hs hid ↦
  List.Subset.trans (h id kinds found hmem scope hs hid) hseen

theorem covered_of_entries_eq_nil {pools : Pools} (h : pools.entries = []) (seen : List Spot) :
    Covered host pools seen := by
  intro id kinds found hmem
  rw [h] at hmem
  cases hmem

theorem Surveys.mono {x : Search α} (h : Surveys host x nodes) (hsub : front ⊆ nodes) :
    Surveys host x front := by
  intro pools seen hright hcovered
  obtain ⟨after, hseen, hnodes, hrest⟩ := h pools seen hright hcovered
  exact ⟨after, hseen, List.Subset.trans hsub hnodes, hrest⟩

theorem surveys_follow {t : Trace α} (h : nodes.length ≤ t.visits) :
    Surveys host (follow t) nodes := by
  intro pools seen hright hcovered
  have hvisits : (follow t pools).visits = t.visits :=
    Trace.visits_andThen_of_silent (fun _ ↦ rfl) t
  refine ⟨seen ++ nodes, List.subset_append_left .., List.subset_append_right .., ?_, ?_⟩
  · rw [hvisits, List.length_append]
    omega
  · intro a pools' hresult
    rw [follow, Trace.result_andThen] at hresult
    cases ht : t.result with
    | error fault =>
      rw [ht] at hresult
      cases hresult
    | ok b =>
      rw [ht] at hresult
      obtain rfl : pools = pools' := congrArg Prod.snd (Except.ok.inj hresult)
      exact hcovered.mono (List.subset_append_left ..)

theorem surveys_emit (e : Event) : Surveys host (emit e) [] := surveys_follow (Nat.zero_le _)

theorem surveys_pure (a : α) : Surveys host (pure a) [] :=
  surveys_follow (t := pure a) (Nat.zero_le _)

theorem Surveys.bind {x : Search α} {f : α → Search β} {a : α} (h : Surveys host x front)
    (hx : Finds host x (.ok a)) (hf : Surveys host (f a) back) :
    Surveys host (x >>= f) (front ++ back) := by
  intro pools seen hright hcovered
  obtain ⟨pools', hright', hresult⟩ := hx pools hright
  obtain ⟨between, hseen, hfront, hlength, hcovered'⟩ := h pools seen hright hcovered
  obtain ⟨after, hbetween, hback, hlength', hcovered''⟩ :=
    hf pools' between hright' (hcovered' a pools' hresult)
  refine ⟨after, List.Subset.trans hseen hbetween,
    List.append_subset.mpr ⟨List.Subset.trans hfront hbetween, hback⟩, ?_, ?_⟩
  · rw [visits_bind hresult]
    omega
  · intro b pools'' hresult'
    rw [bind_apply, Trace.result_andThen, hresult] at hresult'
    exact hcovered'' b pools'' hresult'

theorem Surveys.bind_pure {x : Search α} {a : α} (h : Surveys host x nodes)
    (hx : Finds host x (.ok a)) (f : α → β) : Surveys host (x >>= fun a ↦ pure (f a)) nodes := by
  have hbind := h.bind hx (f := fun a ↦ pure (f a)) (surveys_pure (f a))
  rwa [List.append_nil] at hbind

private theorem surveys_mapM {f : α → Search β} {g : α → β} {seen : α → List Spot} {items : List α}
    (hf : ∀ a ∈ items, Finds host (f a) (.ok (g a)))
    (h : ∀ a ∈ items, Surveys host (f a) (seen a)) :
    Surveys host (items.mapM f) (items.flatMap seen) := by
  induction items with
  | nil => exact surveys_pure []
  | cons a rest ih =>
    have hrest := ih (fun b hb ↦ hf b (List.mem_cons_of_mem a hb))
      fun b hb ↦ h b (List.mem_cons_of_mem a hb)
    have hfound : Finds host (rest.mapM f) (.ok (rest.map g)) := by
      refine (finds_mapM fun b hb ↦ hf b (List.mem_cons_of_mem a hb)).of_eq ?_
      exact List.mapM_pure
    rw [List.mapM_cons]
    exact (h a List.mem_cons_self).bind (hf a List.mem_cons_self)
      (hrest.bind_pure hfound (g a :: ·))

theorem Covered.get {pools : Pools} (h : Covered host pools seen) (key : PoolKey) :
    Covered host (pools.get key).2 seen := fun id kinds found hmem ↦
  h id kinds found (LruCache.mem_of_mem_get hmem)

theorem Covered.put {pools : Pools} (h : Covered host pools seen) (hh : host.Labelled)
    (hs : host.document.Has scope) (kinds : List NodeKind) (found : Option (List Spot))
    (hseen : (scope.descendants host.shown fun _ ↦ false) ⊆ seen) :
    Covered host (pools.put (scope.id, kinds) found) seen := by
  intro id kinds' found' hmem other hother hid
  rcases LruCache.mem_of_mem_put hmem with heq | hmem
  · obtain rfl : id = scope.id := congrArg (·.1.1) heq
    rwa [hh.document.eq_of_id hother hs hid]
  · exact h id kinds' found' hmem other hother hid

private theorem surveys_pool (hh : host.Labelled) (hs : host.document.Has scope)
    (kinds : List NodeKind) :
    Surveys host (pool host scope kinds) (scope.descendants host.shown fun _ ↦ false) := by
  intro pools seen hright hcovered
  have hafter := hcovered.get (scope.id, kinds)
  rw [pool]
  split
  · rename_i remembered after hget
    -- what is remembered was gone through before
    have hmem := LruCache.mem_of_get (congrArg Prod.fst hget)
    refine ⟨seen, List.Subset.refl _, hcovered _ _ _ hmem scope hs rfl, Nat.le_add_right .., ?_⟩
    intro a pools' hresult
    obtain rfl : after = pools' := congrArg Prod.snd (Except.ok.inj hresult)
    rwa [hget] at hafter
  · rename_i after hget
    rw [hget] at hafter
    refine ⟨seen ++ scope.descendants host.shown fun _ ↦ false, List.subset_append_left ..,
      List.subset_append_right .., ?_, fun a pools' hresult ↦ ?_⟩
    · have hcount : (host.findAll scope kinds).visits =
          (scope.descendants host.shown fun _ ↦ false).length := by
        rw [Host.findAll, Host.visits_lookBelow, goneThrough_false]
      rw [Trace.visits_andThen_of_silent (fun _ ↦ rfl), hcount]
      exact Nat.le_of_eq List.length_append
    · rw [Trace.result_andThen, Host.findAll, Host.result_lookBelow] at hresult
      rw [← (Prod.mk.inj (Except.ok.inj hresult)).2]
      exact (hafter.mono (List.subset_append_left ..)).put hh hs kinds _
        (List.subset_append_right ..)

/-! ## Scopes and segments -/

private theorem surveys_scanBelow (hh : host.Labelled) (hs : host.document.Has scope)
    (bulk : Bool) :
    Surveys host (scanBelow bulk host false segment matcher scope)
      (candidatesBelow host segment scope) := by
  rw [scanBelow, candidatesBelow]
  split
  · refine surveys_follow (Nat.le_of_eq ?_)
    rw [visits_lookAtChildren, goneThrough_false]
  · split
    · rename_i kinds _
      rw [map_eq_pure_bind]
      refine Surveys.mono ((surveys_pool hh hs kinds).bind_pure (finds_pool hh hs kinds) _) ?_
      exact hh.document.tree.descendants_subset hs fun _ _ ↦ rfl
    · refine surveys_follow (Nat.le_of_eq ?_)
      rw [lookThrough, Host.visits_lookBelow, goneThrough_false]

private theorem surveys_scan (hh : host.Labelled) (hs : host.document.Has scope) (bulk : Bool) :
    Surveys host (scan bulk host false segment (.ofQuery segment.nameQuery) allowSelf scope)
      (candidates host segment allowSelf scope) := by
  have hrest : ∀ own : List Spot, Surveys host
      (do
        let below ← scanBelow bulk host false segment (.ofQuery segment.nameQuery) scope
        pure (own ++ below))
      (candidatesBelow host segment scope) := fun own ↦
    (surveys_scanBelow hh hs bulk).bind_pure (finds_scanBelow hh hs (by simp)) (own ++ ·)
  rw [scan, candidates]
  cases allowSelf with
  | false => exact hrest []
  | true =>
    refine Surveys.bind (surveys_follow (Nat.le_of_eq ?_)) finds_lookAt (hrest _)
    rw [visits_lookAt, Bool.true_and]

private theorem surveys_matchAll (hh : host.Labelled) (hscopes : ∀ s ∈ scopes, host.document.Has s)
    (bulk : Bool) :
    Surveys host (matchAll bulk host segment (.ofQuery segment.nameQuery) allowSelf scopes)
      (scopes.flatMap (candidates host segment allowSelf)) := by
  have hfound : ∀ s ∈ scopes, Finds host
      (do
        check
        let matched ← scan bulk host false segment (.ofQuery segment.nameQuery) allowSelf s
        pure (s, matched)) (.ok (s, finder bulk host segment allowSelf s)) := fun s hs ↦
    finds_check.bind_ok ((finds_scan_false hh (hscopes s hs)).bind_ok (finds_pure _))
  refine Surveys.bind_pure (surveys_mapM hfound fun s hs ↦ ?_) (finds_scanAll hh hscopes) _
  exact (surveys_emit .check).bind finds_check
    ((surveys_scan hh (hscopes s hs) bulk).bind_pure (finds_scan_false hh (hscopes s hs)) _)

theorem surveys_evaluateSegment (hh : host.Labelled)
    (hscopes : ∀ s ∈ scopes, host.document.Has s) (bulk : Bool) (hpick : segment.pick = none)
    (hstop : segment.stopAtFirst = false) :
    Surveys host (evaluateSegment bulk host segment allowSelf scopes)
      (scopes.flatMap (candidates host segment allowSelf)) := by
  rw [evaluateSegment, hpick, hstop]
  exact surveys_matchAll hh hscopes bulk

end Evaluation

end SceneSearch
