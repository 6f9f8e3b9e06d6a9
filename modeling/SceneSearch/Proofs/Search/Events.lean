import SceneSearch.Search.Engine

/-!
# What a search asks of its host

The events of a search are those of its parts in order, as far as no part fails. So a condition on
events that holds for each part holds for the whole: `Trace.Emits` and `Evaluation.Emits` say so for
traces and for parts that go on with remembered lookups, and have one rule for each way in which
parts are put together. What is shown with them is that a search never changes its mind about the
invisible children of instances: every request is made with the flag of the host as it was when the
search began.
-/

namespace SceneSearch

/-! ## Conditions on events -/

namespace Trace

variable {α β : Type} {ok : Event → Prop}

/-- All events meet a condition. -/
def Emits (ok : Event → Prop) (t : Trace α) : Prop := ∀ e ∈ t.events, ok e

theorem emits_done (r : Except SearchFault α) : (done r).Emits ok := by simp [Emits, events]

theorem Emits.step {e : Event} {next : Unit → Trace α} (he : ok e) (h : (next ()).Emits ok) :
    (step e next).Emits ok := by
  intro event hmem
  rcases List.mem_cons.mp hmem with rfl | hmem
  · exact he
  · exact h event hmem

theorem Emits.andThen {t : Trace α} {f : α → Trace β} (ht : t.Emits ok)
    (hf : ∀ a, (f a).Emits ok) : (t.andThen f).Emits ok := by
  intro event hmem
  rw [events_andThen] at hmem
  split at hmem
  · exact ht event hmem
  · rcases List.mem_append.mp hmem with hmem | hmem
    · exact ht event hmem
    · exact hf _ event hmem

end Trace

namespace Evaluation

variable {α β : Type} {ok : Event → Prop}

theorem bind_apply (x : Search α) (f : α → Search β) (pools : Pools) :
    (x >>= f) pools = (x pools).andThen fun r ↦ f r.1 r.2 := rfl

/-- All events meet a condition, whatever lookups are remembered. -/
def Emits (ok : Event → Prop) (x : Search α) : Prop := ∀ pools, (x pools).Emits ok

theorem emits_pure (a : α) : Emits ok (pure a : Search α) := fun _ ↦ Trace.emits_done _

theorem Emits.bind {x : Search α} {f : α → Search β} (hx : Emits ok x)
    (hf : ∀ a, Emits ok (f a)) : Emits ok (x >>= f) := fun pools ↦ by
  rw [bind_apply]
  exact (hx pools).andThen fun r ↦ hf r.1 r.2

theorem Emits.map {x : Search α} (f : α → β) (hx : Emits ok x) : Emits ok (f <$> x) := by
  rw [map_eq_pure_bind]
  exact hx.bind fun a ↦ emits_pure (f a)

theorem emits_follow {t : Trace α} (ht : t.Emits ok) : Emits ok (follow t) := fun _ ↦
  ht.andThen fun _ ↦ Trace.emits_done _

theorem emits_emit {e : Event} (he : ok e) : Emits ok (emit e) :=
  emits_follow (.step he (Trace.emits_done _))

theorem emits_liftExcept (r : Except SearchFault α) : Emits ok (liftExcept r) :=
  emits_follow (Trace.emits_done r)

theorem emits_mapM {f : α → Search β} {items : List α} (h : ∀ a, Emits ok (f a)) :
    Emits ok (items.mapM f) := by
  induction items with
  | nil => exact emits_pure []
  | cons a rest ih =>
    rw [List.mapM_cons]
    exact (h a).bind fun b ↦ ih.bind fun bs ↦ emits_pure (b :: bs)

end Evaluation

/-! ## Requests -/

/-- The event is no request, or one that hides children of instances or not, as `hides` says. -/
def Event.Asks (hides : Bool) (e : Event) : Prop := ∀ h, e = .request h → h = hides

namespace Host

variable {h : Host}

theorem asks_visit {hides : Bool} : Event.visit.Asks hides := nofun

private theorem emits_lookAmong {hides first : Bool} {prune keep : Spot → Bool} {steps : Nat}
    {kept waiting : List Spot} :
    (lookAmong hides first prune keep steps kept waiting).Emits (Event.Asks hides) := by
  fun_induction lookAmong hides first prune keep steps kept waiting with
  | case1 => exact Trace.emits_done _
  | case2 => exact Trace.emits_done _
  | case3 steps kept s waiting _ ih => exact ih
  | case4 steps kept s waiting _ ih =>
    refine .step asks_visit ?_
    dsimp only
    split
    · exact Trace.emits_done _
    · exact .step (fun _ heq ↦ (Event.request.inj heq).symm) ih

theorem emits_childrenOf {s : Spot} :
    (h.childrenOf s).Emits (Event.Asks h.skipsInstanceChildren) :=
  .step (fun _ heq ↦ (Event.request.inj heq).symm) (Trace.emits_done _)

theorem emits_lookBelow {first : Bool} {prune keep : Spot → Bool} {s : Spot} :
    (h.lookBelow first prune keep s).Emits (Event.Asks h.skipsInstanceChildren) :=
  emits_childrenOf.andThen fun _ ↦ emits_lookAmong

end Host

namespace Evaluation

variable {host : Host} {segment : SegmentPlan} {matcher : NameMatcher}

private theorem emits_visitAmong {hides first : Bool} {keep : Spot → Bool}
    {kept spots : List Spot} :
    (visitAmong first keep kept spots).Emits (Event.Asks hides) := by
  induction spots generalizing kept with
  | nil => exact Trace.emits_done _
  | cons s rest ih =>
    refine .step Host.asks_visit ?_
    dsimp only
    split
    · exact Trace.emits_done _
    · exact ih

private theorem emits_pool {scope : Spot} {kinds : List NodeKind} :
    Emits (Event.Asks host.skipsInstanceChildren) (pool host scope kinds) := by
  intro pools
  rw [pool]
  split
  · exact Trace.emits_done _
  · exact Host.emits_lookBelow.andThen fun _ ↦ Trace.emits_done _

theorem emits_scan {bulk first allowSelf : Bool} {scope : Spot} :
    Emits (Event.Asks host.skipsInstanceChildren)
      (scan bulk host first segment matcher allowSelf scope) := by
  have hbelow : Emits (Event.Asks host.skipsInstanceChildren)
      (scanBelow bulk host first segment matcher scope) := by
    rw [scanBelow]
    split
    · exact emits_follow (Host.emits_childrenOf.andThen fun _ ↦ emits_visitAmong)
    · split
      · exact emits_pool.map _
      · exact emits_follow Host.emits_lookBelow
  -- what follows on the look at the scope itself, whether that was allowed or not
  have hrest : ∀ own : List Spot, Emits (Event.Asks host.skipsInstanceChildren)
      (if first && !own.isEmpty then pure own
        else do
          let below ← scanBelow bulk host first segment matcher scope
          pure (own ++ below)) := by
    intro own
    split
    · exact emits_pure own
    · exact hbelow.bind fun below ↦ emits_pure _
  rw [scan]
  split
  · exact (emits_follow emits_visitAmong).bind hrest
  · exact (emits_pure []).bind hrest

theorem emits_check {hides : Bool} : Emits (Event.Asks hides) check := emits_emit nofun

private theorem emits_findFirst {allowSelf : Bool} {scopes : List Spot} :
    Emits (Event.Asks host.skipsInstanceChildren)
      (findFirst host segment matcher allowSelf scopes) := by
  induction scopes with
  | nil => exact emits_pure []
  | cons scope rest ih =>
    refine emits_check.bind fun _ ↦ emits_scan.bind fun found ↦ ?_
    split
    · exact emits_pure _
    · exact ih

private theorem emits_scanAll {bulk allowSelf : Bool} {scopes : List Spot} :
    Emits (Event.Asks host.skipsInstanceChildren)
      (scanAll bulk host segment matcher allowSelf scopes) :=
  emits_mapM fun _ ↦ emits_check.bind fun _ ↦ emits_scan.bind fun _ ↦ emits_pure _

private theorem emits_evaluateSegment {bulk allowSelf : Bool} {scopes : List Spot} :
    Emits (Event.Asks host.skipsInstanceChildren)
      (evaluateSegment bulk host segment allowSelf scopes) := by
  rw [evaluateSegment]
  split
  · split
    · exact emits_scanAll.bind fun _ ↦ (emits_liftExcept _).bind fun _ ↦ emits_pure _
    · refine Emits.bind (emits_mapM fun scope ↦ ?_) fun _ ↦ emits_pure _
      exact emits_check.bind fun _ ↦ emits_scan.bind fun _ ↦
        (emits_liftExcept _).bind fun _ ↦ emits_pure _
  · split
    · exact emits_findFirst
    · exact emits_scanAll.bind fun _ ↦ emits_pure _

private theorem emits_evaluateSegments {bulk childSearch : Bool} {found : List Found}
    {scopes : List Spot}
    {segments : List SegmentPlan} :
    Emits (Event.Asks host.skipsInstanceChildren)
      (evaluateSegments bulk host childSearch found scopes segments) := by
  induction segments generalizing found scopes with
  | nil => exact emits_pure found
  | cons segment rest ih =>
    refine emits_check.bind fun _ ↦ emits_evaluateSegment.bind fun found ↦
      (emits_emit nofun).bind fun _ ↦ ?_
    split
    · exact emits_pure []
    · exact ih

private theorem emits_findPage {hides : Bool} {pages : List Spot} :
    Emits (Event.Asks hides) (findPage matcher pages) := by
  induction pages with
  | nil => exact emits_pure none
  | cons page rest ih =>
    refine (emits_emit Host.asks_visit).bind fun _ ↦ ?_
    split
    · exact emits_pure _
    · exact ih

private theorem emits_evaluatePlan {bulk : Bool} {plan : QueryPlan} :
    Emits (Event.Asks host.skipsInstanceChildren) (evaluatePlan bulk host plan) := by
  rw [evaluatePlan]
  split
  · refine emits_findPage.bind fun page ↦ ?_
    split
    · exact emits_pure _
    · exact emits_evaluateSegments.bind fun found ↦
        (emits_liftExcept _).bind fun _ ↦ emits_pure _
  · exact emits_evaluateSegments.bind fun found ↦
      (emits_liftExcept _).bind fun _ ↦ emits_pure _

end Evaluation

/-- **A search asks one way**: with the flag of its host. -/
theorem QueryPlan.emits_trace (plan : QueryPlan) (host : Host) (settings : Evaluation.Settings) :
    (plan.trace host settings).Emits (Event.Asks host.skipsInstanceChildren) :=
  (Evaluation.emits_evaluatePlan settings.pools).andThen fun _ ↦
    Trace.emits_done _

end SceneSearch
