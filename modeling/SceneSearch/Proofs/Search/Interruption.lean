import SceneSearch.Proofs.Search.Events
import SceneSearch.Search.Session

/-!
# Searches that are disturbed

A search may be cancelled before it begins or at any yield, and the host may fail at any request.
Since what a search does is a trace that knows nothing of this, a disturbance can only end it early:
it never changes what is visited next, and never what is found. So a disturbed search is compared
with the same search under a *calmed* monitor, which goes through the same events and is ended by
none of them.

The comparison is one of single events, `calmed_step`: whatever becomes of an event, the calmed
monitor gets past it and is afterwards the calmed one of the other. Everything else follows by going
through the events of a trace.
-/

namespace SceneSearch

/-! ## Renamed failures -/

section

variable {ε ε' α : Type} {rename : ε → ε'}

theorem mapError_ok (a : α) : (Except.ok a).mapError rename = .ok a := rfl

theorem exists_of_mapError_eq_error {r : Except ε α} {fault : ε'}
    (h : r.mapError rename = .error fault) : ∃ cause, r = .error cause ∧ rename cause = fault := by
  cases r with
  | error cause => exact ⟨cause, rfl, Except.error.inj h⟩
  | ok a => cases h

end

/-! ## The watch -/

namespace Watch

variable {w : Watch}

/-- The watch may end a search: it is cancelled already, or its hook cancels at some count. -/
def MayCancel (w : Watch) : Prop :=
  w.cancelled = true ∨ ∃ hook count, w.hook = some hook ∧ hook count = true

private theorem yieldEvery_tell (w : Watch) : w.tell.yieldEvery = w.yieldEvery := by
  rw [tell]
  split <;> rfl

theorem MayCancel.of_tell (h : w.tell.MayCancel) : w.MayCancel := by
  rw [tell] at h
  split at h
  · exact h
  · rename_i hook hhook
    rcases h with hcancelled | ⟨_, count, heq, hcount⟩
    · rcases Bool.or_eq_true_iff.mp hcancelled with hcancelled | hcount
      · exact Or.inl hcancelled
      · exact Or.inr ⟨hook, w.visited, hhook, hcount⟩
    · exact Or.inr ⟨_, count, heq, hcount⟩

/-- The watch that has counted one visit more. -/
def counted (w : Watch) : Watch := { w with visited := w.visited + 1 }

/-- A visit counts, and at a yield the hook is told the count and the flag is looked at. -/
theorem visit_eq (hcadence : w.yieldEvery ≠ 0) :
    w.visit =
      if (w.visited + 1) % w.yieldEvery.natAbs = 0 then (w.counted.tell.check, w.counted.tell)
      else (.ok (), w.counted) := by
  simp only [visit, hcadence, if_false]
  rfl

private theorem yieldEvery_visit (w : Watch) : w.visit.2.yieldEvery = w.yieldEvery := by
  simp only [visit]
  split
  · rfl
  · split
    · exact yieldEvery_tell _
    · rfl

theorem MayCancel.of_visit (h : w.visit.2.MayCancel) : w.MayCancel := by
  simp only [visit] at h
  split at h
  · exact h
  · split at h
    · exact (show w.counted.tell.MayCancel from h).of_tell
    · exact h

theorem cancelled_of_check {fault : WatchFault} (h : w.check = .error fault) :
    fault = .cancelled ∧ w.cancelled = true := by
  rw [check] at h
  split at h
  · rename_i hcancelled
    cases h
    exact ⟨rfl, hcancelled⟩
  · cases h

private theorem cancelled_of_visit (hcadence : w.yieldEvery ≠ 0) {fault : WatchFault}
    (h : w.visit.1 = .error fault) : fault = .cancelled ∧ w.visit.2.cancelled = true := by
  rw [visit_eq hcadence] at h ⊢
  split at h
  · rename_i hyield
    rw [if_pos hyield]
    exact cancelled_of_check h
  · cases h

end Watch

/-! ## Calmed monitors -/

namespace Monitor

variable {m : Monitor} {e : Event} {fault : SearchFault}

/-- Nothing disturbs a search under the monitor. -/
structure Calm (m : Monitor) : Prop where
  /-- It is not cancelled. -/
  cancelled : m.watch.cancelled = false
  /-- The progress hook does not cancel it. -/
  hook : ∀ hook, m.watch.hook = some hook → ∀ count, hook count = false
  /-- The host does not fail. -/
  failure : m.failure = none

/-- The monitor without what may disturb a search. The progress hook is told the same counts. -/
def calmed (m : Monitor) : Monitor :=
  { m with
    watch := { m.watch with cancelled := false, hook := m.watch.hook.map fun _ _ ↦ false },
    failure := none }

/-- The failures that a monitor may end a search with: that it was cancelled, or the words that its
host fails with. -/
def Disturbs (m : Monitor) (fault : SearchFault) : Prop :=
  fault = .cancelled ∧ m.watch.MayCancel ∨
    ∃ first message, m.failure = some (first, message) ∧ fault = .hostFailed message

theorem calm_calmed (m : Monitor) : m.calmed.Calm where
  cancelled := rfl
  hook hook h count := by
    obtain ⟨_, _, rfl⟩ := Option.map_eq_some_iff.mp h
    rfl
  failure := rfl

theorem calm_default : ({} : Monitor).Calm := ⟨rfl, nofun, rfl⟩

theorem Calm.calmed_eq (h : m.Calm) : m.calmed = m := by
  obtain ⟨hcancelled, hhook, hfailure⟩ := h
  obtain ⟨watch, failure, requests, unskipped, skipped, log⟩ := m
  obtain ⟨yieldEvery, hook, visited, progress, cancelled⟩ := watch
  simp only [calmed, Monitor.mk.injEq, Watch.mk.injEq, and_true, true_and] at *
  refine ⟨⟨?_, hcancelled.symm⟩, hfailure.symm⟩
  cases hook with
  | none => rfl
  | some f => exact congrArg some (funext fun count ↦ (hhook f rfl count).symm)

/-! ## One event -/

theorem yieldEvery_step (m : Monitor) (e : Event) :
    (m.step e).2.watch.yieldEvery = m.watch.yieldEvery := by
  cases e with
  | check => rfl
  | visit => exact Watch.yieldEvery_visit m.watch
  | request hides =>
    simp only [step, request]
    split
    · rfl
    · split <;> rfl
  | note record => rfl

/-- **One event**: the calmed monitor gets past it and is the calmed one afterwards. -/
theorem calmed_step (hcadence : m.watch.yieldEvery ≠ 0) (e : Event) :
    m.calmed.step e = (.ok (), (m.step e).2.calmed) := by
  cases e with
  | check => rfl
  | visit =>
    have hcalmed : m.calmed.watch.yieldEvery ≠ 0 := hcadence
    -- both count alike, so they yield at the same visits; the calmed hook never cancels
    simp only [step, Watch.visit_eq hcadence, Watch.visit_eq hcalmed]
    by_cases hyield : (m.watch.visited + 1) % m.watch.yieldEvery.natAbs = 0
    · cases hhook : m.watch.hook <;>
        simp [calmed, hyield, hhook, Watch.counted, Watch.tell, Watch.check, mapError_ok]
    · simp [calmed, hyield, Watch.counted, mapError_ok]
  | request hides =>
    simp only [step, request, calmed]
    split
    · rfl
    · split <;> rfl
  | note record => rfl

private theorem failure_step (m : Monitor) (e : Event) : (m.step e).2.failure = m.failure := by
  cases e with
  | request hides =>
    simp only [step, request]
    split
    · rfl
    · split <;> rfl
  | _ => rfl

private theorem mayCancel_of_step (h : (m.step e).2.watch.MayCancel) : m.watch.MayCancel := by
  cases e with
  | visit => exact Watch.MayCancel.of_visit h
  | request hides =>
    simp only [step, request] at h
    split at h
    · exact h
    · split at h <;> exact h
  | _ => exact h

theorem Disturbs.of_step (h : (m.step e).2.Disturbs fault) : m.Disturbs fault := by
  rw [Disturbs, failure_step] at h
  exact h.imp_left fun ⟨hfault, hcancel⟩ ↦ ⟨hfault, mayCancel_of_step hcancel⟩

theorem disturbs_of_check (h : m.check = .error fault) : m.Disturbs fault := by
  obtain ⟨cause, hcheck, rfl⟩ := exists_of_mapError_eq_error h
  obtain ⟨rfl, hcancelled⟩ := Watch.cancelled_of_check hcheck
  exact Or.inl ⟨rfl, Or.inl hcancelled⟩

private theorem disturbs_of_step (hcadence : m.watch.yieldEvery ≠ 0)
    (h : (m.step e).1 = .error fault) : m.Disturbs fault := by
  cases e with
  | check => exact disturbs_of_check h
  | visit =>
    obtain ⟨cause, hvisit, rfl⟩ := exists_of_mapError_eq_error h
    obtain ⟨rfl, hcancelled⟩ := Watch.cancelled_of_visit hcadence hvisit
    exact Or.inl ⟨rfl, Watch.MayCancel.of_visit (Or.inl hcancelled)⟩
  | request hides =>
    simp only [step, request] at h
    split at h
    · cases h
    · rename_i first message hfailure
      split at h
      · cases h
        exact Or.inr ⟨first, message, hfailure, rfl⟩
      · cases h
  | note record => cases h

private theorem skipped_step (h : e.Asks false) : (m.step e).2.skipped = m.skipped := by
  cases e with
  | request hides =>
    obtain rfl : hides = false := h hides rfl
    simp only [step, request, Bool.or_false]
    split
    · rfl
    · split <;> rfl
  | _ => rfl

/-! ## Whole traces -/

variable {α : Type} {t : Trace α}

/-- A search that comes to its end comes to the same end when it is not disturbed. -/
theorem run_calmed_of_ok (hcadence : m.watch.yieldEvery ≠ 0) {a : α} (h : (m.run t).1 = .ok a) :
    m.calmed.run t = (.ok a, (m.run t).2.calmed) := by
  induction t generalizing m with
  | done result =>
    have hresult : result = .ok a := h
    rw [run, hresult]
    rfl
  | step e next ih =>
    have hnext : (m.step e).2.watch.yieldEvery ≠ 0 := yieldEvery_step m e ▸ hcadence
    rw [run, calmed_step hcadence]
    rw [run] at h ⊢
    cases hstep : m.step e with
    | mk outcome after =>
      rw [hstep] at h hnext
      cases outcome with
      | error fault => cases h
      | ok u => exact ih () hnext h

theorem run_calmed (hcadence : m.watch.yieldEvery ≠ 0) (t : Trace α) :
    (m.calmed.run t).1 = t.result := by
  induction t generalizing m with
  | done result => rfl
  | step e next ih =>
    rw [run, calmed_step hcadence]
    exact ih () (yieldEvery_step m e ▸ hcadence)

private theorem disturbs_of_run (hcadence : m.watch.yieldEvery ≠ 0)
    (h : (m.run t).1 = .error fault) :
    m.Disturbs fault ∨ t.result = .error fault := by
  -- by induction on the trace: the first event that fails is a disturbance, and if none does the
  -- trace itself fails
  induction t generalizing m with
  | done result => exact Or.inr h
  | step e next ih =>
    have hnext : (m.step e).2.watch.yieldEvery ≠ 0 := yieldEvery_step m e ▸ hcadence
    rw [run] at h
    cases hstep : (m.step e).1 with
    | error cause =>
      have heq : m.step e = (.error cause, (m.step e).2) := Prod.ext hstep rfl
      rw [heq] at h
      cases h
      exact Or.inl (disturbs_of_step hcadence hstep)
    | ok u =>
      have heq : m.step e = (.ok u, (m.step e).2) := Prod.ext hstep rfl
      rw [heq] at h
      exact (ih () hnext h).imp_left Disturbs.of_step

private theorem skipped_run (h : t.Emits (Event.Asks false)) : (m.run t).2.skipped = m.skipped := by
  induction t generalizing m with
  | done result => rfl
  | step e next ih =>
    have he : e.Asks false := h e List.mem_cons_self
    have hnext : (next ()).Emits (Event.Asks false) := fun event hmem ↦
      h event (List.mem_cons_of_mem e hmem)
    rw [run]
    rw [← skipped_step (m := m) he]
    split
    · rename_i hstep
      rw [hstep]
    · rename_i hstep
      rw [ih () hnext, hstep]

end Monitor

/-! ## Searches -/

/-- A search that may be disturbed, against the one that is not: it comes to the same answer, or it
is ended by a disturbance, or it fails in the same way. -/
structure AllOrNothing (m : Monitor) (outcome calm : Except SearchFault Response) : Prop where
  /-- An answer is the whole answer. -/
  ok : ∀ r, outcome = .ok r → calm = .ok r
  /-- A failure is a disturbance or no matter of disturbances. -/
  error : ∀ fault, outcome = .error fault → m.Disturbs fault ∨ calm = .error fault

theorem AllOrNothing.refl (m : Monitor) (outcome : Except SearchFault Response) :
    AllOrNothing m outcome outcome := ⟨fun _ h ↦ h, fun _ h ↦ Or.inr h⟩

namespace Engine

variable {e : Engine} {host : Host} {query : String} {plan : QueryPlan} {m : Monitor}
  {fault : SearchFault}

theorem evaluate_eq (e : Engine) (host : Host) (plan : QueryPlan) (m : Monitor) :
    e.evaluate host plan m =
      match (m.note .debug ("Query plan: " ++ plan.describe)).run
          (plan.trace (host.exposed plan.modifiers.includesHidden) e.settings) with
      | (.error fault, m) => (.error fault, host, m)
      | (.ok r, m) =>
        (.ok { r with visited := m.watch.visited }, host, m.note .debug
          (toString r.results.length ++ " results, " ++ toString m.watch.visited ++
            " nodes visited")) := by
  have hback : ∀ everything,
      { host.exposed everything with
        skipsInstanceChildren := host.skipsInstanceChildren } = host := by
    intro everything
    rw [Host.exposed]
    split <;> rfl
  simp only [evaluate, Host.exposing, hback]
  rcases (m.note .debug ("Query plan: " ++ plan.describe)).run
    (plan.trace (host.exposed plan.modifiers.includesHidden) e.settings) with ⟨_ | _, _⟩ <;> rfl

private theorem host_evaluate : (e.evaluate host plan m).2.1 = host := by
  rw [evaluate_eq]
  split <;> rfl

theorem evaluate_allOrNothing (hcadence : m.watch.yieldEvery ≠ 0) :
    AllOrNothing m (e.evaluate host plan m).1 (e.evaluate host plan m.calmed).1 := by
  have hnote : m.calmed.note .debug ("Query plan: " ++ plan.describe) =
      (m.note .debug ("Query plan: " ++ plan.describe)).calmed := rfl
  rw [evaluate_eq, evaluate_eq, hnote]
  generalize plan.trace (host.exposed plan.modifiers.includesHidden) e.settings = t
  have hstart : (m.note .debug ("Query plan: " ++ plan.describe)).watch.yieldEvery ≠ 0 := hcadence
  constructor
  · intro r h
    split at h
    · cases h
    · rename_i answer after hrun
      rw [Monitor.run_calmed_of_ok hstart (congrArg Prod.fst hrun), hrun]
      exact h
  · intro fault h
    split at h
    · rename_i cause after hrun
      cases h
      -- what is no disturbance is the result of the trace, and the calmed run comes to that
      refine (Monitor.disturbs_of_run hstart (congrArg Prod.fst hrun)).imp_right fun hresult ↦ ?_
      have hcalm := (Monitor.run_calmed hstart t).trans hresult
      split
      · rename_i hrun'
        rw [hrun'] at hcalm
        exact hcalm
      · rename_i hrun'
        rw [hrun'] at hcalm
        cases hcalm
    · cases h

private theorem skipped_evaluate (h : plan.modifiers.includesHidden = true) :
    (e.evaluate host plan m).2.2.skipped = m.skipped := by
  have hasks := plan.emits_trace (host.exposed plan.modifiers.includesHidden) e.settings
  have hflag : (host.exposed plan.modifiers.includesHidden).skipsInstanceChildren = false := by
    rw [h]
    rfl
  rw [hflag] at hasks
  have hrun := Monitor.skipped_run (m := m.note .debug ("Query plan: " ++ plan.describe)) hasks
  rw [evaluate_eq]
  split <;> (rename_i hrun'; rw [hrun'] at hrun; exact hrun)

/-! ## Answers and searches -/

/-- The answer that is remembered for a query, if it may be used. -/
def recalled (e : Engine) (host : Host) (query : String) (plan : QueryPlan) : Option Response :=
  if plan.modifiers.includesHidden then none else (e.lookUp (keyOf host query)).1

theorem recalled_new : Engine.new.recalled host query plan = none := by
  rw [recalled]
  split <;> rfl

theorem outcome_answer (e : Engine) (host : Host) (query : String) (plan : QueryPlan)
    (m : Monitor) :
    (e.answer host query plan m).1 =
      match e.recalled host query plan with
      | some r => .ok { r with visited := 0 }
      | none => (e.evaluate host plan m).1 := by
  rw [answer, recalled]
  split
  · rfl
  · simp only [lookUp]
    cases (e.responses.get (keyOf host query)).1 with
    | some r => rfl
    | none =>
      dsimp only
      split <;> (rename_i heval; exact (congrArg Prod.fst heval).symm)

private theorem host_answer : (e.answer host query plan m).2.2.1 = host := by
  rw [answer]
  split
  · exact host_evaluate
  · simp only [lookUp]
    cases (e.responses.get (keyOf host query)).1 with
    | some r => rfl
    | none =>
      dsimp only
      split <;> (rename_i heval; exact (congrArg (·.2.1) heval).symm.trans host_evaluate)

private theorem answer_allOrNothing (e : Engine) (host : Host) (query : String) (plan : QueryPlan)
    (hcadence : m.watch.yieldEvery ≠ 0) :
    AllOrNothing m (e.answer host query plan m).1 (e.answer host query plan m.calmed).1 := by
  rw [outcome_answer, outcome_answer]
  cases e.recalled host query plan with
  | some r => exact .refl m _
  | none => exact evaluate_allOrNothing hcadence

private theorem entries_answer (h : (e.answer host query plan m).1 = .error fault) :
    (e.answer host query plan m).2.1.responses.entries = e.responses.entries := by
  rw [answer] at h ⊢
  split at h
  · rename_i hhidden
    rw [if_pos hhidden]
  · rename_i hhidden
    rw [if_neg hhidden]
    simp only [lookUp] at h ⊢
    cases hget : (e.responses.get (keyOf host query)).1 with
    | some r =>
      rw [hget] at h
      cases h
    | none =>
      rw [hget] at h
      dsimp only at h ⊢
      split at h
      · -- a key that is not found is not moved to the front either
        exact LruCache.entries_get_of_none e.answered hget
      · cases h

private theorem skipped_answer (h : plan.modifiers.includesHidden = true) :
    (e.answer host query plan m).2.2.2.skipped = m.skipped := by
  rw [answer, if_pos h]
  exact skipped_evaluate h

theorem yieldEvery_begin (plan : QueryPlan) (m : Monitor) :
    (begin plan m).watch.yieldEvery ≠ 0 := by
  simp only [begin, yieldIntervalFor]
  split <;> decide

theorem host_search : (e.search host query m).2.2.1 = host := by
  rw [search]
  split
  · rfl
  · split
    · rfl
    · dsimp only
      split
      · rfl
      · exact host_answer

theorem allOrNothing_search :
    AllOrNothing m (e.search host query m).1 (e.search host query m.calmed).1 := by
  rw [search, search]
  cases parseQuery query with
  | error cause => exact .refl m _
  | ok plan =>
    dsimp only
    split
    · exact .refl m _
    · have hbegin : begin plan m.calmed = (begin plan m).calmed := rfl
      have hcheck : (begin plan m).calmed.check = .ok () := rfl
      rw [hbegin, hcheck]
      dsimp only
      split
      · rename_i cause hfail
        refine ⟨nofun, fun fault h ↦ Or.inl ?_⟩
        cases h
        exact Monitor.disturbs_of_check (m := begin plan m) hfail
      · obtain ⟨hok, herror⟩ := answer_allOrNothing e host query plan (yieldEvery_begin plan m)
        exact ⟨hok, herror⟩

private theorem entries_search (h : (e.search host query m).1 = .error fault) :
    (e.search host query m).2.1.responses.entries = e.responses.entries := by
  rw [search] at h ⊢
  cases hparse : parseQuery query with
  | error cause => rfl
  | ok plan =>
    rw [hparse] at h
    dsimp only at h ⊢
    split
    · rfl
    · rename_i hempty
      rw [if_neg hempty] at h
      cases hcheck : (begin plan m).check with
      | error cause => rfl
      | ok u =>
        rw [hcheck] at h
        exact entries_answer h

private theorem skipped_search (hplan : parseQuery query = .ok plan)
    (h : plan.modifiers.includesHidden = true) :
    (e.search host query m).2.2.2.skipped = m.skipped := by
  rw [search, hplan]
  dsimp only
  split
  · rfl
  · split
    · rfl
    · exact skipped_answer h

end Engine

namespace Session

theorem search_eq (s : Session) (query : String) (m : Monitor) :
    s.search query m =
      ((s.engine.search s.host query m).1,
        ⟨(s.engine.search s.host query m).2.2.1, (s.engine.search s.host query m).2.1⟩,
        (s.engine.search s.host query m).2.2.2) := by
  rw [search]

/-- **Searches are all or nothing.** A search may be cancelled, before it begins or at any yield,
and its host may fail from any request on. It gives the whole answer of the search that is not
disturbed, or it fails: since it was cancelled, with the words of the host, or as the undisturbed
search does. The host is afterwards what it was before, its flag included, and a search that fails
leaves the entries of the cache as they were. A search through hidden layers makes no request that
hides children. -/
theorem search_all_or_nothing (s : Session) (query : String) (m : Monitor) :
    (∀ r, (s.search query m).1 = .ok r → (s.search query m.calmed).1 = .ok r) ∧
    (∀ fault, (s.search query m).1 = .error fault →
      m.Disturbs fault ∨ (s.search query m.calmed).1 = .error fault) ∧
    (s.search query m).2.1.host = s.host ∧
    (∀ fault, (s.search query m).1 = .error fault →
      (s.search query m).2.1.engine.responses.entries = s.engine.responses.entries) ∧
    (∀ plan, parseQuery query = .ok plan → plan.modifiers.includesHidden = true →
      (s.search query m).2.2.skipped = m.skipped) := by
  simp only [search_eq]
  exact ⟨Engine.allOrNothing_search.ok, Engine.allOrNothing_search.error, Engine.host_search,
    fun _ h ↦ Engine.entries_search h, fun _ hplan h ↦ Engine.skipped_search hplan h⟩

end Session

end SceneSearch
