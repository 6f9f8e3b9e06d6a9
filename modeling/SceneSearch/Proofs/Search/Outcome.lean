import SceneSearch.Proofs.Search.Interruption
import SceneSearch.Search.Outcome

/-!
# How runs end

A run stores the query, searches, and applies what was found. `Outcome.Settles` says what each of
the five endings means for the host: only a run that found layers selects and moves the viewport,
only one that found layers or a page shows another page, and every other one leaves the host as it
was. A run has one point after which nothing can fail, `finishRun`, and the host is changed behind
it.

A store that fails is reported in the log, so a run with such a store has other records than one
without a store. No search looks at the log: monitors that are *alike*, which differ in their
records at most, go through a trace in the same way. So the outcome and the host do not depend on
the store at all.
-/

namespace SceneSearch

/-! ## Monitors that are alike -/

namespace Monitor

variable {m m' : Monitor} {e : Event}

/-- The monitor without its records. -/
def unlogged (m : Monitor) : Monitor := { m with log := [] }

/-- Two monitors differ in their records at most. -/
def Alike (m m' : Monitor) : Prop := m.unlogged = m'.unlogged

namespace Alike

theorem symm (h : m.Alike m') : m'.Alike m := Eq.symm h

theorem trans {m'' : Monitor} (h : m.Alike m') (h' : m'.Alike m'') : m.Alike m'' := Eq.trans h h'

theorem watch_eq (h : m.Alike m') : m.watch = m'.watch :=
  (Monitor.mk.inj (show m.unlogged = m'.unlogged from h)).1

private theorem note (h : m.Alike m') (level : LogLevel) (message message' : String) :
    (m.note level message).Alike (m'.note level message') := h

end Alike

private theorem step_unlogged (m : Monitor) (e : Event) :
    (m.unlogged.step e).1 = (m.step e).1 ∧ (m.unlogged.step e).2.Alike (m.step e).2 := by
  cases e with
  | check => exact ⟨rfl, rfl⟩
  | visit => exact ⟨rfl, rfl⟩
  | request hides =>
    cases hfailure : m.failure with
    | none =>
      simp only [step, request, unlogged, hfailure]
      exact ⟨trivial, rfl⟩
    | some failure =>
      by_cases hfails : failure.1 ≤ m.requests + 1
      · simp only [step, request, unlogged, hfailure, hfails, if_true]
        exact ⟨trivial, rfl⟩
      · simp only [step, request, unlogged, hfailure, hfails, if_false]
        exact ⟨trivial, rfl⟩
  | note record => exact ⟨rfl, rfl⟩

/-- **One event** finds monitors that are alike in the same way, and leaves them alike. -/
theorem Alike.step (h : m.Alike m') (e : Event) :
    (m.step e).1 = (m'.step e).1 ∧ (m.step e).2.Alike (m'.step e).2 := by
  obtain ⟨houtcome, hafter⟩ := step_unlogged m e
  obtain ⟨houtcome', hafter'⟩ := step_unlogged m' e
  have heq : m.unlogged = m'.unlogged := h
  rw [heq] at houtcome hafter
  exact ⟨houtcome.symm.trans houtcome', hafter.symm.trans hafter'⟩

/-- **A whole trace** has the same result under monitors that are alike, and leaves them alike. -/
theorem Alike.run {α : Type} (h : m.Alike m') (t : Trace α) :
    (m.run t).1 = (m'.run t).1 ∧ (m.run t).2.Alike (m'.run t).2 := by
  -- by induction on the trace; an event fails under both monitors or under neither
  induction t generalizing m m' with
  | done result => exact ⟨rfl, h⟩
  | step e next ih =>
    obtain ⟨houtcome, hafter⟩ := h.step e
    rw [Monitor.run, Monitor.run]
    rcases hm : m.step e with ⟨outcome, after⟩
    rcases hm' : m'.step e with ⟨outcome', after'⟩
    rw [hm, hm'] at houtcome hafter
    have heq : outcome = outcome' := houtcome
    subst heq
    cases outcome with
    | error fault => exact ⟨rfl, hafter⟩
    | ok u => exact ih () hafter

end Monitor

namespace Engine

variable {e : Engine} {host : Host} {query : String} {plan : QueryPlan} {m m' : Monitor}

private theorem evaluate_alike (h : m.Alike m') :
    (e.evaluate host plan m).1 = (e.evaluate host plan m').1 ∧
      (e.evaluate host plan m).2.2.Alike (e.evaluate host plan m').2.2 := by
  have hnote := h.note .debug ("Query plan: " ++ plan.describe) ("Query plan: " ++ plan.describe)
  obtain ⟨hresult, hafter⟩ :=
    hnote.run (plan.trace (host.exposed plan.modifiers.includesHidden) e.settings)
  rw [evaluate_eq, evaluate_eq]
  rcases hrun : (m.note .debug ("Query plan: " ++ plan.describe)).run
    (plan.trace (host.exposed plan.modifiers.includesHidden) e.settings) with ⟨result, after⟩
  rcases hrun' : (m'.note .debug ("Query plan: " ++ plan.describe)).run
    (plan.trace (host.exposed plan.modifiers.includesHidden) e.settings) with ⟨result', after'⟩
  rw [hrun, hrun'] at hresult hafter
  obtain rfl : result = result' := hresult
  cases result with
  | error fault => exact ⟨rfl, hafter⟩
  | ok r =>
    -- the answer tells how many visits the watch counted
    have hwatch : after.watch = after'.watch := Monitor.Alike.watch_eq hafter
    constructor
    · simp only [hwatch]
    · exact Monitor.Alike.note hafter _ _ _

theorem monitor_answer (e : Engine) (host : Host) (query : String) (plan : QueryPlan)
    (m : Monitor) :
    (e.answer host query plan m).2.2.2 =
      match e.recalled host query plan with
      | some _ => m.note .debug ("Result cache hit for " ++ quoted query)
      | none => (e.evaluate host plan m).2.2 := by
  rw [answer, recalled]
  split
  · rfl
  · simp only [lookUp]
    cases (e.responses.get (keyOf host query)).1 with
    | some r => rfl
    | none =>
      dsimp only
      split <;> (rename_i heval; exact (congrArg (·.2.2) heval).symm)

private theorem answer_alike (h : m.Alike m') :
    (e.answer host query plan m).1 = (e.answer host query plan m').1 ∧
      (e.answer host query plan m).2.2.2.Alike (e.answer host query plan m').2.2.2 := by
  simp only [outcome_answer, monitor_answer]
  cases e.recalled host query plan with
  | some r => exact ⟨rfl, h⟩
  | none => exact evaluate_alike h

private theorem search_alike (e : Engine) (host : Host) (query : String) (h : m.Alike m') :
    (e.search host query m).1 = (e.search host query m').1 ∧
      (e.search host query m).2.2.2.Alike (e.search host query m').2.2.2 := by
  rw [search, search]
  cases parseQuery query with
  | error cause => exact ⟨rfl, h⟩
  | ok plan =>
    dsimp only
    split
    · exact ⟨rfl, h⟩
    · have hbegin : (begin plan m).Alike (begin plan m') := by
        obtain ⟨watch, failure, requests, unskipped, skipped, log⟩ := m
        obtain ⟨watch', failure', requests', unskipped', skipped', log'⟩ := m'
        cases h
        rfl
      have hcheck : (begin plan m).check = (begin plan m').check := (hbegin.step .check).1
      rw [hcheck]
      cases (begin plan m').check with
      | error fault => exact ⟨rfl, hbegin⟩
      | ok u => exact answer_alike hbegin

end Engine

/-! ## Stores -/

namespace QueryStore

variable {σ : Type}

/-- What becomes of a store that is given a query: a store that works has it once more, one that
fails has what it had. -/
def given (s : QueryStore σ) (query : String) : QueryStore σ :=
  match s.save s.state query with
  | .ok state => { s with state }
  | .error _ => s

theorem keep_spec (store : Option (QueryStore σ)) (query : String) (m : Monitor) :
    (keep store query m).1 = store.map (·.given query) ∧ (keep store query m).2.Alike m := by
  cases store with
  | none => exact ⟨rfl, rfl⟩
  | some s =>
    simp only [keep, Option.map_some, given]
    cases s.save s.state query with
    | ok state => exact ⟨rfl, rfl⟩
    | error message => exact ⟨rfl, rfl⟩

end QueryStore

/-! ## Endings -/

/-- The selected layers without their paths. -/
def Outcome.nodes (o : Outcome) : List Spot := o.results.map Found.spot

/-- What an outcome means for the host, which was in one state before the run and is in another one
afterwards. -/
def Outcome.Settles (o : Outcome) (before after : Host) : Prop :=
  match o.status with
  | .selected =>
    o.results ≠ [] ∧ (∀ s ∈ o.nodes, s.kind ≠ .page) ∧
      after = { before with
        currentPage := o.page.getD before.currentPage, selection := o.nodes, focused := o.nodes }
  | .pageOnly =>
    o.results = [] ∧ ∃ page, o.page = some page ∧ page.kind = .page ∧
      after = { before with currentPage := page }
  | .noMatch | .cancelled | .error => o.results = [] ∧ o.page = none ∧ after = before

section

variable {host shown : Host} {query : String} {m m' : Monitor} {r : Response}

/-- A page that can be shown is a page, and nothing else of the host changes. -/
theorem Host.eq_of_showing {target : Option Spot} (h : host.showing target = .ok shown) :
    (∀ page ∈ target, page.kind = .page) ∧
      shown = { host with currentPage := target.getD host.currentPage } := by
  cases target with
  | none =>
    cases h
    exact ⟨nofun, rfl⟩
  | some page =>
    simp only [Host.showing, Host.setCurrentPage] at h
    split at h
    · rename_i hpage
      cases h
      refine ⟨?_, rfl⟩
      rintro _ ⟨rfl⟩
      exact hpage
    · cases h

theorem Response.settles_apply (h : host.showing r.target = .ok shown) :
    (r.apply shown query m).1.Settles host (r.apply shown query m).2.1 := by
  obtain ⟨hpage, rfl⟩ := Host.eq_of_showing h
  rw [Response.apply]
  dsimp only
  split
  · rename_i hnodes
    refine ⟨?_, ?_, rfl⟩
    · rintro hempty
      simp [show r.selectable = [] from hempty] at hnodes
    · intro s hs
      obtain ⟨f, hf, rfl⟩ := List.mem_map.mp hs
      exact of_decide_eq_true (List.mem_filter.mp hf).2
  · split
    · rename_i page htarget
      rw [htarget] at hpage
      exact ⟨rfl, page, rfl, hpage page rfl, by rw [htarget]; rfl⟩
    · rename_i htarget
      exact ⟨rfl, rfl, by rw [htarget]; rfl⟩

theorem Outcome.settles_ofCancel (host : Host) (query : String) (m : Monitor) :
    (Outcome.ofCancel query m).1.Settles host host := ⟨rfl, rfl, rfl⟩

theorem Outcome.settles_ofFailure (host : Host) (message query : String) (m : Monitor) :
    (Outcome.ofFailure message query m).1.Settles host host := ⟨rfl, rfl, rfl⟩

theorem Outcome.settles_ofFault (host : Host) (fault : SearchFault) (query : String)
    (m : Monitor) : (Outcome.ofFault fault query m).1.Settles host host := by
  cases fault <;> exact ⟨rfl, rfl, rfl⟩

private theorem settles_finishRun (answer : Except SearchFault Response) (host : Host)
    (query : String)
    (m : Monitor) :
    (finishRun answer host query m).1.Settles host (finishRun answer host query m).2.1 := by
  cases answer with
  | error fault => exact Outcome.settles_ofFault host fault query m
  | ok r =>
    dsimp only [finishRun]
    split
    · exact Outcome.settles_ofCancel host query m
    · split
      · exact Outcome.settles_ofFailure host _ query m
      · rename_i hshown
        exact Response.settles_apply hshown

theorem Outcome.Settles.skipsInstanceChildren_eq {o : Outcome} {before after : Host}
    (h : o.Settles before after) : after.skipsInstanceChildren = before.skipsInstanceChildren := by
  rw [Outcome.Settles] at h
  split at h
  · obtain ⟨-, -, rfl⟩ := h
    rfl
  · obtain ⟨-, page, -, -, rfl⟩ := h
    rfl
  all_goals
    obtain ⟨-, -, rfl⟩ := h
    rfl

private theorem finishRun_alike (answer : Except SearchFault Response) (h : m.Alike m') :
    (finishRun answer host query m).1 = (finishRun answer host query m').1 ∧
      (finishRun answer host query m).2.1 = (finishRun answer host query m').2.1 := by
  have hwatch := h.watch_eq
  cases answer with
  | error fault => cases fault <;> exact ⟨rfl, rfl⟩
  | ok r =>
    simp only [finishRun, hwatch]
    split
    · exact ⟨rfl, rfl⟩
    · split
      · exact ⟨rfl, rfl⟩
      · simp only [Response.apply]
        split
        · exact ⟨rfl, rfl⟩
        · split <;> exact ⟨rfl, rfl⟩

end

/-! ## Runs -/

section

variable {σ τ : Type} (engine : Engine) (host : Host) (query : String)
  (store : Option (QueryStore σ)) (m : Monitor)

theorem runQuery_eq {stored : Option (QueryStore σ)} {noted after : Monitor}
    {answer : Except SearchFault Response} {searched : Engine} {found : Host}
    (hkeep : QueryStore.keep store query m = (stored, noted))
    (hsearch : engine.search host query noted = (answer, searched, found, after)) :
    runQuery engine host query store m =
      { outcome := (finishRun answer host query after).1,
        host := (finishRun answer host query after).2.1,
        engine := searched.clearCaches, store := store.map (·.given query),
        monitor := (finishRun answer host query after).2.2 } := by
  have hhost : (engine.search host query noted).2.2.1 = host := Engine.host_search
  rw [hsearch] at hhost
  dsimp only at hhost
  have hstored : store.map (·.given query) = stored := by
    rw [← (QueryStore.keep_spec store query m).1, hkeep]
  rw [runQuery, hkeep]
  simp only [hsearch, hhost, hstored]

private theorem runQuery_eq_of_stores (other : Option (QueryStore τ)) :
    (runQuery engine host query other m).outcome = (runQuery engine host query store m).outcome ∧
      (runQuery engine host query other m).host = (runQuery engine host query store m).host := by
  have hnoted := (QueryStore.keep_spec store query m).2
  have hnoted' := (QueryStore.keep_spec other query m).2
  rcases hstore : QueryStore.keep store query m with ⟨stored, noted⟩
  rcases hother : QueryStore.keep other query m with ⟨stored', noted'⟩
  simp only [hstore] at hnoted
  simp only [hother] at hnoted'
  obtain ⟨hanswer, hafter⟩ := Engine.search_alike engine host query (hnoted'.trans hnoted.symm)
  rcases hsearch : engine.search host query noted with ⟨answer, searched, found, after⟩
  rcases hsearch' : engine.search host query noted' with ⟨answer', searched', found', after'⟩
  simp only [hsearch, hsearch'] at hanswer hafter
  rw [runQuery_eq engine host query store m hstore hsearch,
    runQuery_eq engine host query other m hother hsearch', hanswer]
  exact finishRun_alike answer hafter

/-- **Every run has one ending.** A run gives an outcome that says what has become of the host. The
flag of the host is what it was, no answer is remembered any more, and a store that works was given
the query once. A store that fails stays as it was, and neither the outcome nor the host depend on
it: they are those of a run with any other store, or with none. -/
theorem runQuery_has_one_ending :
    (runQuery engine host query store m).outcome.Settles host
      (runQuery engine host query store m).host ∧
    (runQuery engine host query store m).host.skipsInstanceChildren =
      host.skipsInstanceChildren ∧
    (runQuery engine host query store m).engine.responses.entries = [] ∧
    (∀ s, store = some s → ∀ state, s.save s.state query = .ok state →
      (runQuery engine host query store m).store = some { s with state }) ∧
    (∀ s, store = some s → ∀ message, s.save s.state query = .error message →
      (runQuery engine host query store m).store = some s) ∧
    ∀ other : Option (QueryStore τ),
      (runQuery engine host query other m).outcome =
        (runQuery engine host query store m).outcome ∧
      (runQuery engine host query other m).host = (runQuery engine host query store m).host := by
  have hstores := runQuery_eq_of_stores (τ := τ) engine host query store m
  rcases hkeep : QueryStore.keep store query m with ⟨stored, noted⟩
  rcases hsearch : engine.search host query noted with ⟨answer, searched, found, after⟩
  have hsettles := settles_finishRun answer host query after
  rw [runQuery_eq engine host query store m hkeep hsearch] at hstores ⊢
  refine ⟨hsettles, hsettles.skipsInstanceChildren_eq, Engine.responses_clearCaches searched,
    ?_, ?_, hstores⟩
  · rintro s rfl state hsave
    simp only [Option.map_some, QueryStore.given, hsave]
  · rintro s rfl message hsave
    simp only [Option.map_some, QueryStore.given, hsave]

end

end SceneSearch
