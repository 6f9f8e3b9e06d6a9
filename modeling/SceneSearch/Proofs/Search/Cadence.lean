import Mathlib.Order.Lattice.Nat
import SceneSearch.Proofs.Search.Outcome
import SceneSearch.Proofs.Search.Visits

/-!
# The cadence of a search

A search tells its progress hook how many nodes it has visited, every so many visits, and looks at
the cancel flag right afterwards. Visits come from wherever the search happens to be: from looking
for a page, from a scope itself, from its children, from a walk, or from within a bulk lookup. None
of these keeps a count of its own. So the cadence is a matter of single events, `KeepsCadence.step`,
and holds of a whole search because a search is nothing but events.

The counter of the watch is compared with the visits that were made, which are counted among the
events that were gone through, `Monitor.gone`. A hook that cancels from some count on changes
nothing until the first multiple of the interval that is large enough. There the search ends, if it
comes that far.
-/

namespace SceneSearch

/-! ## Multiples -/

/-- The multiples of an interval up to a count, in order. -/
def multiplesTo (k count : Nat) : List Nat := (List.range (count / k)).map fun i ↦ (i + 1) * k

@[simp] theorem multiplesTo_zero (k : Nat) : multiplesTo k 0 = [] := by
  rw [multiplesTo, Nat.zero_div, List.range_zero, List.map_nil]

private theorem multiplesTo_succ (k count : Nat) :
    multiplesTo k (count + 1) =
      if (count + 1) % k = 0 then multiplesTo k count ++ [count + 1] else multiplesTo k count := by
  simp only [multiplesTo, Nat.succ_div, Nat.dvd_iff_mod_eq_zero]
  split
  · rename_i hmultiple
    have hlast : (count / k + 1) * k = count + 1 := by
      rw [← Nat.div_mul_cancel (Nat.dvd_of_mod_eq_zero hmultiple), Nat.succ_div_of_dvd
        (Nat.dvd_of_mod_eq_zero hmultiple)]
    rw [List.range_succ, List.map_append, List.map_singleton, hlast]
  · rfl

/-! ## Hooks -/

/-- A hook that cancels no search. -/
def neverCancels : Nat → Bool := fun _ ↦ false

/-- A hook that cancels as soon as the count is large enough. -/
def cancelsFrom (c : Int) : Nat → Bool := fun count ↦ decide (c ≤ count)

/-- Of the multiples of an interval, a hook cancels at the given one and at all larger ones. -/
structure StopsAt (hook : Nat → Bool) (k stop : Nat) : Prop where
  /-- The first count to cancel at is a multiple. -/
  dvd : k ∣ stop
  /-- The hook cancels from there on. -/
  cancels_iff : ∀ {count : Nat}, 0 < count → k ∣ count → (hook count = true ↔ stop ≤ count)

/-- The least multiple that is no smaller than the interval and the count to cancel from. -/
theorem exists_stopsAt {k : Nat} (hk : 0 < k) (c : Int) :
    ∃ stop : Nat, IsLeast {n : Nat | k ∣ n ∧ max c k ≤ n} stop ∧ 0 < stop ∧
      StopsAt (cancelsFrom c) k stop := by
  have hsome : {n : Nat | k ∣ n ∧ max c k ≤ n}.Nonempty := by
    refine ⟨k * (c.toNat + 1), Nat.dvd_mul_right .., ?_⟩
    have hle : c.toNat + 1 ≤ k * (c.toNat + 1) := Nat.le_mul_of_pos_left _ hk
    have hle' : k ≤ k * (c.toNat + 1) := Nat.le_mul_of_pos_right _ (Nat.succ_pos _)
    omega
  obtain ⟨hdvd, hmax⟩ := Nat.sInf_mem hsome
  generalize hstop : sInf {n : Nat | k ∣ n ∧ max c k ≤ n} = stop at hdvd hmax
  have hleast : ∀ n : Nat, k ∣ n → max c k ≤ n → stop ≤ n := fun n h h' ↦
    hstop ▸ Nat.sInf_le ⟨h, h'⟩
  refine ⟨stop, ⟨⟨hdvd, hmax⟩, fun n hn ↦ hleast n hn.1 hn.2⟩, by omega, hdvd, ?_⟩
  intro count hpos hcount
  have hle : k ≤ count := Nat.le_of_dvd hpos hcount
  rw [cancelsFrom, decide_eq_true_iff]
  exact ⟨fun hc ↦ hleast count hcount (by omega), fun h ↦ by omega⟩

namespace Monitor

variable {m : Monitor} {e : Event} {k stop : Nat} {hook : Nat → Bool}

/-- The monitor with another progress hook. -/
def hooked (m : Monitor) (hook : Nat → Bool) : Monitor :=
  { m with watch := { m.watch with hook := some hook } }

theorem hook_step (m : Monitor) (e : Event) : (m.step e).2.watch.hook = m.watch.hook := by
  cases e with
  | visit =>
    have htell : ∀ w : Watch, w.tell.hook = w.hook := by
      intro w
      rw [Watch.tell]
      split <;> rfl
    simp only [step, Watch.visit]
    split
    · rfl
    · split
      · exact htell _
      · rfl
  | request hides =>
    simp only [step, request]
    split
    · rfl
    · split <;> rfl
  | _ => rfl

/-! ## Events that are gone through -/

/-- The events that are gone through: all of them, or those up to the first one that fails. -/
def gone (m : Monitor) : List Event → List Event
  | [] => []
  | e :: rest =>
    e ::
      match m.step e with
      | (.error _, _) => []
      | (.ok (), m) => m.gone rest

theorem visited_step (hcadence : m.watch.yieldEvery ≠ 0) (e : Event) :
    (m.step e).2.watch.visited = m.watch.visited + [e].count .visit := by
  by_cases he : e = .visit
  · subst he
    exact visited_step_visit hcadence
  · rw [visited_step_of_ne he, List.count_singleton, beq_false_of_ne he]
    rfl

/-- **The counter counts the visits that were made.** -/
theorem visited_replay (hcadence : m.watch.yieldEvery ≠ 0) (events : List Event) :
    (m.replay events).2.watch.visited =
      m.watch.visited + (m.gone events).count .visit := by
  induction events generalizing m with
  | nil => rfl
  | cons e rest ih =>
    have hstep := visited_step hcadence e
    have hnext : (m.step e).2.watch.yieldEvery ≠ 0 := yieldEvery_step m e ▸ hcadence
    rw [replay, gone, ← List.singleton_append, List.count_append, ← Nat.add_assoc, ← hstep]
    rcases hm : m.step e with ⟨_ | _, after⟩
    · rfl
    · rw [hm] at hnext
      exact ih hnext

/-! ## What the hook is told -/

/-- After what it was `told` before, the hook was told every multiple of the interval up to the
counter. -/
structure KeepsCadence (m : Monitor) (k : Nat) (told : List Nat) : Prop where
  /-- The interval between two yields. -/
  interval : m.watch.yieldEvery = k
  /-- There is a hook. -/
  hooked : m.watch.hook.isSome = true
  /-- What it was told. -/
  progress : m.watch.progress = told ++ multiplesTo k m.watch.visited

namespace KeepsCadence

variable {told : List Nat}

/-- **One event** keeps the cadence. -/
theorem step (h : m.KeepsCadence k told) (hk : 0 < k) (e : Event) :
    (m.step e).2.KeepsCadence k told := by
  obtain ⟨hinterval, hhook, hprogress⟩ := h
  have hcadence : m.watch.yieldEvery ≠ 0 := by omega
  refine ⟨(yieldEvery_step m e).trans hinterval, (hook_step m e).symm ▸ hhook, ?_⟩
  cases e with
  | visit =>
    obtain ⟨hook, hsome⟩ := Option.isSome_iff_exists.mp hhook
    rw [visited_step_visit hcadence, multiplesTo_succ, Monitor.step, Watch.visit_eq hcadence,
      hinterval, Int.natAbs_natCast]
    split
    · simp only [Watch.tell, Watch.counted, hsome, hprogress, List.append_assoc]
    · exact hprogress
  | request hides =>
    simp only [Monitor.step, request]
    split
    · exact hprogress
    · split <;> exact hprogress
  | _ => exact hprogress

private theorem replay (h : m.KeepsCadence k told) (hk : 0 < k) (events : List Event) :
    (m.replay events).2.KeepsCadence k told := by
  induction events generalizing m with
  | nil => exact h
  | cons e rest ih =>
    have hstep := h.step hk e
    rw [Monitor.replay]
    rcases hm : m.step e with ⟨_ | _, after⟩
    · rw [hm] at hstep
      exact hstep
    · rw [hm] at hstep
      exact ih hstep

end KeepsCadence

/-! ## A hook that cancels -/

/-- A search was cancelled by its hook at a count of visits. -/
def Stopped {α : Type} (stop : Nat) (outcome : Except SearchFault α) (m : Monitor) : Prop :=
  outcome = .error .cancelled ∧ m.watch.visited = stop ∧ m.watch.cancelled = true

/-- An event at which the hook does not cancel finds the monitor as one whose hook never does. -/
theorem step_hooked (hnever : m.watch.hook = some neverCancels)
    (hcalm : e = .visit → (m.watch.visited + 1) % m.watch.yieldEvery.natAbs = 0 →
      hook (m.watch.visited + 1) = false) :
    (m.hooked hook).step e = ((m.step e).1, (m.step e).2.hooked hook) := by
  cases e with
  | visit =>
    by_cases hcadence : m.watch.yieldEvery = 0
    · simp only [step, Watch.visit, hooked, hcadence, if_true]
    · have hcadence' : (m.hooked hook).watch.yieldEvery ≠ 0 := hcadence
      simp only [step, Watch.visit_eq hcadence, Watch.visit_eq hcadence']
      by_cases hyield : (m.watch.visited + 1) % m.watch.yieldEvery.natAbs = 0
      · simp [hooked, hyield, hnever, neverCancels, hcalm rfl hyield, Watch.counted, Watch.tell,
          Watch.check]
      · simp [hooked, hyield, Watch.counted]
  | request hides =>
    cases hfailure : m.failure with
    | none => simp only [step, request, hooked, hfailure]
    | some failure =>
      by_cases hfails : failure.1 ≤ m.requests + 1
      · simp only [step, request, hooked, hfailure, hfails, if_true]
      · simp only [step, request, hooked, hfailure, hfails, if_false]
  | _ => rfl

private theorem cancelled_step (hnever : m.watch.hook = some neverCancels) (e : Event) :
    (m.step e).2.watch.cancelled = m.watch.cancelled := by
  cases e with
  | visit =>
    have htell : ∀ w : Watch, w.hook = some neverCancels → w.tell.cancelled = w.cancelled := by
      intro w hw
      rw [Watch.tell, hw]
      exact Bool.or_false _
    simp only [step, Watch.visit]
    split
    · rfl
    · split
      · exact htell _ hnever
      · rfl
  | request hides =>
    simp only [step, request]
    split
    · rfl
    · split <;> rfl
  | _ => rfl

private theorem cancelled_replay (hnever : m.watch.hook = some neverCancels) (events : List Event) :
    (m.replay events).2.watch.cancelled = m.watch.cancelled := by
  induction events generalizing m with
  | nil => rfl
  | cons e rest ih =>
    have hstep := cancelled_step hnever e
    have hnext := (hook_step m e).trans hnever
    rw [replay, ← hstep]
    rcases hm : m.step e with ⟨_ | _, after⟩
    · rfl
    · rw [hm] at hnext
      exact ih hnext

private theorem step_stopped (hstop : StopsAt hook k stop) (hinterval : m.watch.yieldEvery = k)
    (hk : 0 < k) (hcount : m.watch.visited + 1 = stop) :
    Stopped stop ((m.hooked hook).step .visit).1 ((m.hooked hook).step .visit).2 := by
  have hcadence : (m.hooked hook).watch.yieldEvery ≠ 0 := by
    change m.watch.yieldEvery ≠ 0
    omega
  have hyield : (m.watch.visited + 1) % m.watch.yieldEvery.natAbs = 0 := by
    rw [hinterval, hcount, Int.natAbs_natCast]
    exact Nat.mod_eq_zero_of_dvd hstop.dvd
  have hdvd : k ∣ m.watch.visited + 1 := hcount ▸ hstop.dvd
  have hcancels : hook (m.watch.visited + 1) = true :=
    (hstop.cancels_iff (Nat.succ_pos _) hdvd).mpr hcount.ge
  simp only [Stopped, step, Watch.visit_eq hcadence]
  simp [hooked, hyield, hcancels, Watch.counted, Watch.tell, Watch.check, Except.mapError,
    SearchFault.ofWatch, ← hcount]

private theorem visited_le_run {α : Type} (hcadence : m.watch.yieldEvery ≠ 0) (t : Trace α) :
    m.watch.visited ≤ (m.run t).2.watch.visited := by
  have hreplay := visited_replay hcadence t.events
  have heq : (m.run t).2 = (m.replay t.events).2 := by
    rw [run_eq_replay]
    split <;> (rename_i h; rw [h])
  rw [heq, hreplay]
  exact Nat.le_add_right ..

/-- **A hook that cancels from some multiple on** changes nothing of a run that does not come that
far, and ends every other one at that multiple. -/
theorem run_hooked {α : Type} (hstop : StopsAt hook k stop) (hk : 0 < k)
    (hinterval : m.watch.yieldEvery = k) (hnever : m.watch.hook = some neverCancels)
    (hlt : m.watch.visited < stop) (t : Trace α) :
    ((m.run t).2.watch.visited < stop →
      (m.hooked hook).run t = ((m.run t).1, (m.run t).2.hooked hook)) ∧
    (stop ≤ (m.run t).2.watch.visited →
      Stopped stop ((m.hooked hook).run t).1 ((m.hooked hook).run t).2) := by
  -- by induction on the trace: both hooks agree at each event until the visit that makes `stop`
  induction t generalizing m with
  | done result => exact ⟨fun _ ↦ rfl, fun hle ↦ absurd hlt (Nat.not_lt.mpr hle)⟩
  | step e next ih =>
    have hcadence : m.watch.yieldEvery ≠ 0 := by omega
    have hinterval' := (yieldEvery_step m e).trans hinterval
    have hnever' := (hook_step m e).trans hnever
    by_cases hlast : e = .visit ∧ m.watch.visited + 1 = stop
    · obtain ⟨rfl, hcount⟩ := hlast
      obtain ⟨hcancelled, hvisited, hflag⟩ := step_stopped hstop hinterval hk hcount
      have hstopped : (m.hooked hook).run (.step .visit next) =
          (.error .cancelled, ((m.hooked hook).step .visit).2) := by
        rw [run, show (m.hooked hook).step .visit = (.error .cancelled, _) from
          Prod.ext hcancelled rfl]
      have hfar : stop ≤ (m.run (.step .visit next)).2.watch.visited := by
        have hstep := visited_step_visit hcadence
        rw [hcount] at hstep
        rw [run]
        rcases hm : m.step .visit with ⟨_ | _, after⟩
        · rw [hm] at hstep
          exact hstep.ge
        · rw [hm] at hstep hinterval'
          exact hstep ▸ visited_le_run (by rw [hinterval']; omega) (next ())
      rw [hstopped]
      exact ⟨fun h ↦ absurd hfar (Nat.not_le.mpr h), fun _ ↦ ⟨rfl, hvisited, hflag⟩⟩
    · have hnext : (m.step e).2.watch.visited < stop := by
        rw [visited_step hcadence]
        by_cases he : e = .visit
        · subst he
          have hne : m.watch.visited + 1 ≠ stop := fun h ↦ hlast ⟨rfl, h⟩
          rw [List.count_singleton_self]
          omega
        · rw [List.count_singleton, beq_false_of_ne he]
          exact hlt
      have hstep : (m.hooked hook).step e = ((m.step e).1, (m.step e).2.hooked hook) := by
        refine step_hooked hnever fun he hyield ↦ ?_
        subst he
        rw [visited_step_visit hcadence] at hnext
        rw [hinterval, Int.natAbs_natCast] at hyield
        have hiff := hstop.cancels_iff (Nat.succ_pos _) (Nat.dvd_of_mod_eq_zero hyield)
        exact Bool.eq_false_iff.mpr fun h ↦ absurd (hiff.mp h) (Nat.not_le.mpr hnext)
      rw [run, run, hstep]
      rcases hm : m.step e with ⟨_ | _, after⟩
      · rw [hm] at hnext
        exact ⟨fun _ ↦ rfl, fun hle ↦ absurd hnext (Nat.not_lt.mpr hle)⟩
      · rw [hm] at hnext hinterval' hnever'
        exact ih () hinterval' hnever' hnext

end Monitor

/-! ## Searches -/

namespace Engine

variable {e : Engine} {host : Host} {query : String} {plan : QueryPlan} {m : Monitor}
  {k stop : Nat} {hook : Nat → Bool}

/-- Visits between two yields of a search for a query. Nothing is visited for a query that is
refused. -/
def cadence (query : String) : Nat :=
  match parseQuery query with
  | .ok plan => if plan.modifiers.hiddenOnly || plan.modifiers.allLayers then 50 else 300
  | .error _ => 300

/-- What a search for a plan goes through as long as nothing ends it. A remembered answer is given
without an evaluation. -/
def eventsOf (e : Engine) (host : Host) (query : String) (plan : QueryPlan) : List Event :=
  .check ::
    match e.recalled host query plan with
    | some _ => []
    | none =>
      .note ⟨.debug, "Query plan: " ++ plan.describe⟩ ::
        (plan.trace (host.exposed plan.modifiers.includesHidden) e.settings).events

/-- How many visits a search makes. -/
def visitsMade (e : Engine) (host : Host) (query : String) (m : Monitor) : Nat :=
  match parseQuery query with
  | .error _ => 0
  | .ok plan =>
    if plan.isEmpty then 0
    else ((begin plan m).gone (e.eventsOf host query plan)).count .visit

theorem cadence_pos (query : String) : 0 < cadence query := by
  rw [cadence]
  split
  · split <;> decide
  · decide

theorem yieldEvery_begin_eq (hplan : parseQuery query = .ok plan) (m : Monitor) :
    (begin plan m).watch.yieldEvery = cadence query := by
  simp only [begin, cadence, hplan]
  rfl

private theorem visitsMade_of_ok (hplan : parseQuery query = .ok plan)
    (hne : plan.isEmpty = false) :
    e.visitsMade host query m =
      ((begin plan m).gone (e.eventsOf host query plan)).count .visit := by
  rw [visitsMade, hplan]
  dsimp only
  rw [hne, if_neg Bool.false_ne_true]

private theorem watch_evaluate :
    (e.evaluate host plan m).2.2.watch =
      (m.replay (.note ⟨.debug, "Query plan: " ++ plan.describe⟩ ::
        (plan.trace (host.exposed plan.modifiers.includesHidden) e.settings).events)).2.watch := by
  have hnote : m.replay (.note ⟨.debug, "Query plan: " ++ plan.describe⟩ ::
      (plan.trace (host.exposed plan.modifiers.includesHidden) e.settings).events) =
      (m.note .debug ("Query plan: " ++ plan.describe)).replay
        (plan.trace (host.exposed plan.modifiers.includesHidden) e.settings).events := rfl
  rw [hnote, evaluate_eq, Monitor.run_eq_replay]
  rcases (m.note .debug ("Query plan: " ++ plan.describe)).replay
    (plan.trace (host.exposed plan.modifiers.includesHidden) e.settings).events with ⟨_ | _, after⟩
  · rfl
  · dsimp only
    cases (plan.trace (host.exposed plan.modifiers.includesHidden) e.settings).result <;> rfl

theorem watch_search (hplan : parseQuery query = .ok plan) (hne : plan.isEmpty = false) :
    (e.search host query m).2.2.2.watch =
      ((begin plan m).replay (e.eventsOf host query plan)).2.watch := by
  rw [search, hplan]
  dsimp only
  rw [hne, if_neg Bool.false_ne_true, eventsOf]
  cases hcheck : (begin plan m).check with
  | error fault => simp only [Monitor.replay, Monitor.step, hcheck]
  | ok u =>
    simp only [Monitor.replay, Monitor.step, hcheck, monitor_answer]
    cases e.recalled host query plan with
    | some r => rfl
    | none => exact watch_evaluate

theorem visited_search (hplan : parseQuery query = .ok plan) (hne : plan.isEmpty = false) :
    (e.search host query m).2.2.2.watch.visited = e.visitsMade host query m := by
  rw [watch_search hplan hne, visitsMade_of_ok hplan hne,
    Monitor.visited_replay (yieldEvery_begin plan m)]
  exact Nat.zero_add _

private theorem visited_answer {r : Response} (hvisited : m.watch.visited = 0)
    (h : (e.answer host query plan m).1 = .ok r) :
    r.visited = (e.answer host query plan m).2.2.2.watch.visited := by
  rw [outcome_answer] at h
  rw [monitor_answer]
  cases hrecalled : e.recalled host query plan with
  | some remembered =>
    rw [hrecalled] at h
    obtain rfl := Except.ok.inj h
    exact hvisited.symm
  | none =>
    rw [hrecalled] at h
    dsimp only at h ⊢
    rw [evaluate_eq] at h ⊢
    split at h
    · cases h
    · obtain rfl := Except.ok.inj h
      rfl

/-! ## Other hooks -/

/-- What a search leaves behind, with another hook in its monitor. -/
def withHook (hook : Nat → Bool) (left : Except SearchFault Response × Engine × Host × Monitor) :
    Except SearchFault Response × Engine × Host × Monitor :=
  (left.1, left.2.1, left.2.2.1, left.2.2.2.hooked hook)

private theorem cancelled_withHook (hook : Nat → Bool)
    (left : Except SearchFault Response × Engine × Host × Monitor) :
    (withHook hook left).2.2.2.watch.cancelled = left.2.2.2.watch.cancelled := rfl

private theorem evaluate_hooked (e : Engine) (host : Host) (plan : QueryPlan)
    (hstop : StopsAt hook k stop) (hk : 0 < k) (hinterval : m.watch.yieldEvery = k)
    (hnever : m.watch.hook = some neverCancels) (hlt : m.watch.visited < stop) :
    ((e.evaluate host plan m).2.2.watch.visited < stop →
      e.evaluate host plan (m.hooked hook) = ((e.evaluate host plan m).1,
        (e.evaluate host plan m).2.1, (e.evaluate host plan m).2.2.hooked hook)) ∧
    (stop ≤ (e.evaluate host plan m).2.2.watch.visited →
      Monitor.Stopped stop (e.evaluate host plan (m.hooked hook)).1
        (e.evaluate host plan (m.hooked hook)).2.2) := by
  have hrun := Monitor.run_hooked (m := m.note .debug ("Query plan: " ++ plan.describe)) hstop hk
    hinterval hnever hlt (plan.trace (host.exposed plan.modifiers.includesHidden) e.settings)
  have hnote : (m.hooked hook).note .debug ("Query plan: " ++ plan.describe) =
      (m.note .debug ("Query plan: " ++ plan.describe)).hooked hook := rfl
  rw [evaluate_eq, evaluate_eq, hnote]
  generalize (m.note .debug ("Query plan: " ++ plan.describe)).run
    (plan.trace (host.exposed plan.modifiers.includesHidden) e.settings) = calm at hrun ⊢
  generalize ((m.note .debug ("Query plan: " ++ plan.describe)).hooked hook).run
    (plan.trace (host.exposed plan.modifiers.includesHidden) e.settings) = ended at hrun ⊢
  obtain ⟨hsame, hstopped⟩ := hrun
  obtain ⟨outcome, after⟩ := calm
  obtain ⟨outcome', after'⟩ := ended
  constructor
  · intro h
    have hcalm : after.watch.visited < stop := by cases outcome <;> exact h
    cases hsame hcalm
    cases outcome <;> rfl
  · intro h
    have hcalm : stop ≤ after.watch.visited := by cases outcome <;> exact h
    obtain ⟨hcancelled, hvisited, hflag⟩ := hstopped hcalm
    obtain rfl : outcome' = .error .cancelled := hcancelled
    exact ⟨rfl, hvisited, hflag⟩

private theorem answer_hooked (e : Engine) (host : Host) (query : String) (plan : QueryPlan)
    (hstop : StopsAt hook k stop) (hk : 0 < k) (hinterval : m.watch.yieldEvery = k)
    (hnever : m.watch.hook = some neverCancels) (hlt : m.watch.visited < stop) :
    ((e.answer host query plan m).2.2.2.watch.visited < stop →
      e.answer host query plan (m.hooked hook) = withHook hook (e.answer host query plan m)) ∧
    (stop ≤ (e.answer host query plan m).2.2.2.watch.visited →
      Monitor.Stopped stop (e.answer host query plan (m.hooked hook)).1
        (e.answer host query plan (m.hooked hook)).2.2.2) := by
  have heval := fun e' : Engine ↦ evaluate_hooked e' host plan hstop hk hinterval hnever hlt
  simp only [answer]
  split
  · obtain ⟨hsame, hstopped⟩ := heval e
    exact ⟨fun h ↦ by rw [hsame h]; rfl, hstopped⟩
  · rcases e.lookUp (keyOf host query) with ⟨_ | r, e'⟩
    · obtain ⟨hsame, hstopped⟩ := heval e'
      dsimp only
      generalize e'.evaluate host plan m = calm at hsame hstopped ⊢
      generalize e'.evaluate host plan (m.hooked hook) = ended at hsame hstopped ⊢
      obtain ⟨outcome, host', after⟩ := calm
      obtain ⟨outcome', host'', after'⟩ := ended
      constructor
      · intro h
        have hcalm : after.watch.visited < stop := by cases outcome <;> exact h
        cases hsame hcalm
        cases outcome <;> rfl
      · intro h
        have hcalm : stop ≤ after.watch.visited := by cases outcome <;> exact h
        obtain ⟨hcancelled, hvisited, hflag⟩ := hstopped hcalm
        obtain rfl : outcome' = .error .cancelled := hcancelled
        exact ⟨rfl, hvisited, hflag⟩
    · exact ⟨fun _ ↦ rfl, fun h ↦ absurd hlt (Nat.not_lt.mpr h)⟩

/-- A search under a hook that cancels from some multiple on, against the one that its hook does not
cancel. -/
theorem search_hooked (e : Engine) (host : Host) (m : Monitor)
    (hplan : parseQuery query = .ok plan) (hne : plan.isEmpty = false)
    (hstop : StopsAt hook (cadence query) stop) (hpos : 0 < stop) :
    (e.visitsMade host query (m.hooked neverCancels) < stop →
      e.search host query (m.hooked hook) =
        withHook hook (e.search host query (m.hooked neverCancels))) ∧
    (stop ≤ e.visitsMade host query (m.hooked neverCancels) →
      Monitor.Stopped stop (e.search host query (m.hooked hook)).1
        (e.search host query (m.hooked hook)).2.2.2) := by
  have hbegin : begin plan (m.hooked hook) =
      (begin plan (m.hooked neverCancels)).hooked hook := rfl
  have hcheck : ((begin plan (m.hooked neverCancels)).hooked hook).check =
      (begin plan (m.hooked neverCancels)).check := rfl
  have hanswer := answer_hooked (m := begin plan (m.hooked neverCancels)) e host query plan hstop
    (cadence_pos query) (yieldEvery_begin_eq hplan _) rfl hpos
  rw [← visited_search hplan hne]
  simp only [search, hplan, hne, if_neg Bool.false_ne_true, hbegin, hcheck]
  cases (begin plan (m.hooked neverCancels)).check with
  | error fault => exact ⟨fun _ ↦ rfl, fun h ↦ absurd hpos (Nat.not_lt.mpr h)⟩
  | ok u => exact hanswer

theorem unsearched_or_exists_plan (query : String) :
    (∀ plan, parseQuery query = .ok plan → plan.isEmpty = true) ∨
      ∃ plan, parseQuery query = .ok plan ∧ plan.isEmpty = false := by
  cases parseQuery query with
  | error cause => exact Or.inl nofun
  | ok plan =>
    cases hempty : plan.isEmpty with
    | true => exact Or.inl fun _ h ↦ Except.ok.inj h ▸ hempty
    | false => exact Or.inr ⟨plan, rfl, hempty⟩

theorem search_of_unsearched (e : Engine) (host : Host) (m : Monitor)
    (h : ∀ plan, parseQuery query = .ok plan → plan.isEmpty = true) :
    (e.search host query m).2.2.2.watch = m.watch ∧ e.visitsMade host query m = 0 ∧
      (∀ r, (e.search host query m).1 = .ok r → r.visited = 0) ∧
      ∀ hook, e.search host query (m.hooked hook) = withHook hook (e.search host query m) := by
  simp only [search, visitsMade]
  cases hplan : parseQuery query with
  | error cause => exact ⟨rfl, rfl, nofun, fun hook ↦ rfl⟩
  | ok plan =>
    simp only [h plan hplan, if_true]
    refine ⟨rfl, trivial, fun r hr ↦ ?_, fun hook ↦ rfl⟩
    obtain rfl := Except.ok.inj hr
    rfl

private theorem keepsCadence_begin (hplan : parseQuery query = .ok plan) (m : Monitor)
    (hook : Nat → Bool) :
    (begin plan (m.hooked hook)).KeepsCadence (cadence query) m.watch.progress where
  interval := yieldEvery_begin_eq hplan _
  hooked := rfl
  progress := by
    change m.watch.progress = m.watch.progress ++ multiplesTo (cadence query) 0
    rw [multiplesTo_zero, List.append_nil]

/-- The hook of a search is told the multiples of the interval, and the response tells the visits
that were made. -/
theorem progress_search (e : Engine) (host : Host) (query : String) (m : Monitor)
    (hook : Nat → Bool) :
    (e.search host query (m.hooked hook)).2.2.2.watch.progress =
        m.watch.progress ++
          multiplesTo (cadence query) (e.visitsMade host query (m.hooked hook)) ∧
      ∀ r, (e.search host query (m.hooked hook)).1 = .ok r →
        r.visited = e.visitsMade host query (m.hooked hook) := by
  rcases unsearched_or_exists_plan query with h | ⟨plan, hplan, hne⟩
  · obtain ⟨hwatch, hvisits, hanswer, -⟩ :=
      search_of_unsearched e host (m.hooked hook) h
    rw [hwatch, hvisits, multiplesTo_zero, List.append_nil]
    exact ⟨rfl, hanswer⟩
  · have hstart := keepsCadence_begin hplan m hook
    have hend := (hstart.replay (cadence_pos query) (e.eventsOf host query plan)).progress
    rw [← watch_search hplan hne, visited_search hplan hne] at hend
    refine ⟨hend, fun r hr ↦ ?_⟩
    rw [← visited_search hplan hne]
    simp only [search, hplan, hne, if_neg Bool.false_ne_true] at hr ⊢
    cases hcheck : (begin plan (m.hooked hook)).check with
    | error fault =>
      rw [hcheck] at hr
      cases hr
    | ok u =>
      rw [hcheck] at hr
      exact visited_answer rfl hr

private theorem visitsMade_of_cancelled (h : m.watch.cancelled = true) :
    e.visitsMade host query m = 0 := by
  rw [visitsMade]
  split
  · rfl
  · rename_i plan _
    have hcheck : (begin plan m).step .check = (.error .cancelled, begin plan m) := by
      simp [Monitor.step, Monitor.check, Watch.check, begin, h, Except.mapError,
        SearchFault.ofWatch]
    rw [eventsOf, Monitor.gone, hcheck]
    split <;> rfl

/-- A hook that cancels from some count on ends a search at the least multiple that is large enough,
or changes nothing. -/
theorem stops_search (e : Engine) (host : Host) (query : String) (m : Monitor) (c : Int) :
    ∃ stop : Nat, IsLeast {n : Nat | cadence query ∣ n ∧ max c (cadence query) ≤ n} stop ∧
      (e.search host query (m.hooked (cancelsFrom c)) =
          withHook (cancelsFrom c) (e.search host query (m.hooked neverCancels)) ↔
        e.visitsMade host query (m.hooked neverCancels) < stop) ∧
      (stop ≤ e.visitsMade host query (m.hooked neverCancels) →
        (e.search host query (m.hooked (cancelsFrom c))).1 = .error .cancelled ∧
        e.visitsMade host query (m.hooked (cancelsFrom c)) = stop) := by
  obtain ⟨stop, hleast, hpos, hstop⟩ := exists_stopsAt (cadence_pos query) c
  refine ⟨stop, hleast, ?_⟩
  rcases unsearched_or_exists_plan query with h | ⟨plan, hplan, hne⟩
  · obtain ⟨-, hvisits, -, hsame⟩ :=
      search_of_unsearched e host (m.hooked neverCancels) h
    rw [hvisits]
    exact ⟨⟨fun _ ↦ hpos, fun _ ↦ hsame _⟩, fun hle ↦ absurd hpos (Nat.not_lt.mpr hle)⟩
  · obtain ⟨hsame, hstopped⟩ := search_hooked e host m hplan hne hstop hpos
    refine ⟨⟨fun heq ↦ ?_, hsame⟩, fun hle ↦ ?_⟩
    · by_contra hle
      -- only the hook that cancels sets the flag, and a flag that was set before allows no visit
      obtain ⟨-, -, hflag⟩ := hstopped (Nat.not_lt.mp hle)
      have hstart : (begin plan (m.hooked neverCancels)).watch.hook = some neverCancels := rfl
      rw [heq, cancelled_withHook, watch_search hplan hne,
        Monitor.cancelled_replay hstart] at hflag
      have hset : (m.hooked neverCancels).watch.cancelled = true := hflag
      rw [visitsMade_of_cancelled hset] at hle
      exact hle hpos
    · obtain ⟨hcancelled, hvisited, -⟩ := hstopped hle
      exact ⟨hcancelled, (visited_search hplan hne).symm.trans hvisited⟩

/-- **Searches keep their cadence.** Wherever a search ends, its hook was told every multiple of the
interval up to the number of visits, in order and nothing else, and a response tells that number. A
hook that cancels from some count on ends the search at the least multiple that is no smaller than
that count and the interval. A search behaves as under a hook that never cancels exactly when it
makes fewer visits there. -/
theorem search_keeps_cadence (e : Engine) (host : Host) (query : String) (m : Monitor) :
    let k := cadence query
    let under (hook : Nat → Bool) := e.search host query (m.hooked hook)
    let visits (hook : Nat → Bool) := e.visitsMade host query (m.hooked hook)
    (∀ hook,
      (under hook).2.2.2.watch.progress = m.watch.progress ++ multiplesTo k (visits hook) ∧
      ∀ r, (under hook).1 = .ok r → r.visited = visits hook) ∧
    ∀ c : Int, ∃ stop : Nat, IsLeast {n : Nat | k ∣ n ∧ max c k ≤ n} stop ∧
      (under (cancelsFrom c) = withHook (cancelsFrom c) (under neverCancels) ↔
        visits neverCancels < stop) ∧
      (stop ≤ visits neverCancels →
        (under (cancelsFrom c)).1 = .error .cancelled ∧ visits (cancelsFrom c) = stop) := by
  dsimp only
  exact ⟨progress_search e host query m, stops_search e host query m⟩

end Engine

end SceneSearch
