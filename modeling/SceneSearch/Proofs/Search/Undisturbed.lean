import SceneSearch.Proofs.Search.Evaluation
import SceneSearch.Proofs.Search.Interruption

/-!
# Searches that nothing disturbs

A search that nothing disturbs comes to the answer of its host, or to one that is remembered. Of a
response only what it tells is compared, its matches with their paths and the page: how many nodes
were visited depends on how they were looked for, and is left out.
-/

namespace SceneSearch

/-- What a response tells, the count of visits apart. -/
def Response.told (r : Response) : List Found × Option Spot := (r.results, r.page)

variable {e : Engine} {host : Host} {query : String} {plan : QueryPlan} {m : Monitor}

/-- What a host shows to a search does not change what it shows to the user. -/
theorem Host.Labelled.exposed (hh : host.Labelled) (everything : Bool) :
    (host.exposed everything).Labelled := by
  rw [Host.exposed]
  split
  · exact ⟨hh.document, hh.currentPage, hh.selection⟩
  · exact hh

theorem Host.Orderly.exposed (hh : host.Orderly) (everything : Bool) :
    (host.exposed everything).Orderly := by
  rw [Host.exposed]
  split
  · exact ⟨hh.document, hh.currentPage, hh.selection⟩
  · exact hh

theorem Host.exposed_fields (host : Host) (everything : Bool) :
    (host.exposed everything).document = host.document ∧
      (host.exposed everything).currentPage = host.currentPage ∧
      (host.exposed everything).selection = host.selection := by
  rw [exposed]
  split <;> exact ⟨rfl, rfl, rfl⟩

theorem Host.answer_of_isEmpty {bulk : Bool} (h : plan.isEmpty = true) :
    host.answer bulk plan = .ok ([], none) := by
  have hsegments : plan.segments = [] := by simpa [QueryPlan.isEmpty] using h
  have hdirective : plan.hasPageDirective = false := by rw [QueryPlan.hasPageDirective, hsegments]
  rw [answer, Evaluation.Finder.answer, hdirective, hsegments]
  change (Evaluation.finish plan [] >>= fun found ↦ pure (found, none)) = _
  rw [Evaluation.finish]
  cases plan.finalPick <;> rfl

namespace Engine

theorem calm_begin (hm : m.Calm) (plan : QueryPlan) : (begin plan m).Calm :=
  ⟨hm.cancelled, hm.hook, hm.failure⟩

theorem outcome_search (hm : m.Calm) (hplan : parseQuery query = .ok plan) :
    (e.search host query m).1 =
      if plan.isEmpty then .ok {}
      else
        match e.recalled host query plan with
        | some r => .ok { r with visited := 0 }
        | none => (e.evaluate host plan (begin plan m)).1 := by
  have hcheck : (begin plan m).check = .ok () := by
    rw [Monitor.check, Watch.check, (calm_begin hm plan).cancelled]
    rfl
  rw [search, hplan]
  dsimp only
  split
  · rfl
  · rw [hcheck]
    exact outcome_answer e host query plan (begin plan m)

theorem told_evaluate_eq_result (hm : m.Calm) (hcadence : m.watch.yieldEvery ≠ 0) :
    (e.evaluate host plan m).1.map Response.told =
      (plan.trace (host.exposed plan.modifiers.includesHidden) e.settings).result.map
        Response.told := by
  have hnote : (m.note .debug ("Query plan: " ++ plan.describe)).Calm :=
    ⟨hm.cancelled, hm.hook, hm.failure⟩
  have hrun := Monitor.run_calmed (m := m.note .debug ("Query plan: " ++ plan.describe)) hcadence
    (plan.trace (host.exposed plan.modifiers.includesHidden) e.settings)
  rw [hnote.calmed_eq] at hrun
  rw [evaluate_eq]
  split
  · rename_i heq
    rw [← hrun, heq]
  · rename_i heq
    rw [← hrun, heq]
    rfl

theorem told_search_new (hm : m.Calm) (hplan : parseQuery query = .ok plan)
    (hne : plan.isEmpty = false) :
    (Engine.new.search host query m).1.map Response.told =
      (plan.trace (host.exposed plan.modifiers.includesHidden)).result.map Response.told := by
  rw [outcome_search hm hplan, hne, recalled_new]
  exact told_evaluate_eq_result (calm_begin hm plan) (yieldEvery_begin plan m)

/-- An evaluation comes to the answer of the host as the search is shown it. -/
theorem told_evaluate (hh : host.Labelled) (hm : m.Calm) (hcadence : m.watch.yieldEvery ≠ 0)
    (hpools : e.settings.pools.entries = []) :
    (e.evaluate host plan m).1.map Response.told =
      (host.exposed plan.modifiers.includesHidden).answer e.settings.bulk plan := by
  rw [told_evaluate_eq_result hm hcadence, QueryPlan.result_trace (hh.exposed _) hpools]
  cases (host.exposed plan.modifiers.includesHidden).answer e.settings.bulk plan <;> rfl

/-- A search comes to the answer of the host, if a remembered answer is that one. -/
theorem told_search (hh : host.Labelled) (hm : m.Calm) (hpools : e.settings.pools.entries = [])
    (hplan : parseQuery query = .ok plan)
    (hrecalled : ∀ r, e.recalled host query plan = some r →
      (host.exposed plan.modifiers.includesHidden).answer e.settings.bulk plan = .ok r.told) :
    (e.search host query m).1.map Response.told =
      (host.exposed plan.modifiers.includesHidden).answer e.settings.bulk plan := by
  rw [outcome_search hm hplan]
  split
  · rename_i hempty
    rw [Host.answer_of_isEmpty hempty]
    rfl
  · cases hfound : e.recalled host query plan with
    | some r => exact (hrecalled r hfound).symm
    | none => exact told_evaluate hh (calm_begin hm plan) (yieldEvery_begin plan m) hpools

theorem told_search_new_eq_answer (hh : host.Labelled) (hm : m.Calm)
    (hplan : parseQuery query = .ok plan) :
    (Engine.new.search host query m).1.map Response.told =
      (host.exposed plan.modifiers.includesHidden).answer true plan :=
  told_search hh hm rfl hplan fun r h ↦ by
    rw [recalled_new] at h
    cases h

/-- A search with a new engine gives a response if the host has an answer as the search is shown
it. -/
theorem exists_search_of_answer {answer : List Found × Option Spot} (hh : host.Labelled)
    (hm : m.Calm) (hplan : parseQuery query = .ok plan)
    (hanswer : (host.exposed plan.modifiers.includesHidden).answer true plan = .ok answer) :
    ∃ r, (Engine.new.search host query m).1 = .ok r ∧ r.told = answer := by
  have htold := (told_search_new_eq_answer hh hm hplan).trans hanswer
  cases hsearch : (Engine.new.search host query m).1 with
  | error fault =>
    rw [hsearch] at htold
    cases htold
  | ok r =>
    rw [hsearch] at htold
    exact ⟨r, rfl, Except.ok.inj htold⟩

end Engine

/-! ## Bulk lookups -/

theorem Host.Orderly.answer_bulk_eq (hh : host.Orderly) (plan : QueryPlan)
    (hpage : host.currentPage.kind = .page)
    (hselection : host.document.root ∉ host.selection) :
    host.answer true plan = host.answer false plan :=
  Evaluation.Finder.answer_congr host.document.root.Holds
    (fun _ _ ↦ hh.document.finder_staysIn_holds)
    (fun _ _ ↦ hh.document.finder_bulk_agreesOn)
    (fun _ hs ↦ Document.holds_of_mem_pages hs)
    (fun _ hs ↦ hh.holds_of_mem_scopes hpage hselection hs)

/-- **Bulk lookups change nothing that is told.** A search with bulk lookups, however many of them
are remembered, and a search that goes node by node instead find the same nodes in the same order,
with the same paths and the same page, or fail in the same way. -/
theorem Engine.told_search_bulk (hh : host.Orderly) (hpage : host.currentPage.kind = .page)
    (hselection : host.document.root ∉ host.selection) (e : Engine) {capacity : Nat}
    (hcapacity : 0 < capacity) (query : String) (hm : m.Calm) :
    (({ e with settings := { bulk := true, pools := .empty capacity hcapacity } } : Engine).search
        host query m).1.map Response.told =
      (({ e with settings := { bulk := false } } : Engine).search host query m).1.map
        Response.told := by
  cases hplan : parseQuery query with
  | error cause => simp only [search, hplan]
  | ok plan =>
    obtain ⟨hdocument, hcurrent, hselected⟩ := host.exposed_fields plan.modifiers.includesHidden
    have hexposed := hh.exposed plan.modifiers.includesHidden
    have hanswer := hexposed.answer_bulk_eq plan (hcurrent ▸ hpage)
      (hdocument ▸ hselected ▸ hselection)
    rw [outcome_search hm hplan, outcome_search hm hplan]
    split
    · rfl
    · have hrecalled : ∀ settings, ({ e with settings } : Engine).recalled host query plan =
          e.recalled host query plan := fun _ ↦ rfl
      simp only [hrecalled]
      cases e.recalled host query plan with
      | some r => rfl
      | none =>
        have hcalm := calm_begin hm plan
        have hcadence := yieldEvery_begin plan m
        rw [told_evaluate hh.labelled hcalm hcadence rfl,
          told_evaluate hh.labelled hcalm hcadence rfl]
        exact hanswer

/-- For instance a search for the title of a card. -/
theorem Engine.told_search_bulk_cards :
    (({ Engine.new with settings := { bulk := true, pools := .empty 1 Nat.one_pos } } :
        Engine).search .ofCards "Title" {}).1.map Response.told =
      (({ Engine.new with settings := { bulk := false } } :
        Engine).search .ofCards "Title" {}).1.map Response.told :=
  told_search_bulk Host.orderly_ofCards rfl nofun .new Nat.one_pos "Title" Monitor.calm_default

end SceneSearch
