import SceneSearch.Proofs.Query.Plan
import SceneSearch.Proofs.Search.Undisturbed

/-!
# Remembered answers over whole sessions

An engine remembers answers by the id of the page, the query without blanks around it and the ids of
the selection, and by nothing else. Whether that is enough is a matter of the whole session. So
`Session.Arises` goes along with a list of what was asked and answered since the caches were last
cleared, and `Session.Recalls` is what a session keeps up: every remembered answer is what some
query on that list comes to on the host that it was asked on.

Ids name nodes only as long as these are nodes of one document. What was taken out of the document
may still be shown or selected, and then other nodes may come to have its id; so an answer is
promised to be the one of a new engine where the queries with its key were asked on the same nodes.
For hosts that show and select nodes of an orderly document this always holds, and
`Host.Orderly.answer_eq_of_keyOf_eq` adds that it does not matter then whether the host hides the
invisible children of instances. That is `Engine.Truthful`.

Searches may be disturbed, and then add nothing. Edits of the document leave answers behind that are
no longer true, so an edit has to be followed by the clearing of caches before the next search.
-/

namespace SceneSearch

/-! ## Sessions under way -/

namespace Session

/-- What may happen to a session. -/
inductive Act where
  /-- A search, which may be disturbed. -/
  | search (query : String) (m : Monitor)
  /-- Other nodes are selected. -/
  | select (nodes : List Spot)
  /-- Another page is shown, if it is one. -/
  | showPage (page : Spot)
  /-- The host hides the invisible children of instances from now on, or no longer. -/
  | hideInstanceChildren (hides : Bool)
  /-- The caches are cleared. -/
  | clearCaches
  /-- The document is edited. -/
  | edit (scene : Scene)

/-- The session after an act. -/
def after (s : Session) : Act → Session
  | .search query m => (s.search query m).2.1
  | .select nodes => { s with host := s.host.select nodes }
  | .showPage page =>
    match s.host.setCurrentPage page with
    | .ok host => { s with host }
    | .error _ => s
  | .hideInstanceChildren hides => { s with host := { s.host with skipsInstanceChildren := hides } }
  | .clearCaches => s.clearCaches
  | .edit scene => s.edit scene

/-- Whether the document was edited since the caches were last cleared. -/
def Act.leavesEdited (edited : Bool) : Act → Bool
  | .edit _ => true
  | .clearCaches => false
  | _ => edited

/-- What may come next: anything but a search on a document that was edited, and a search only on an
orderly host. -/
def Permits (s : Session) (edited : Bool) : Act → Prop
  | .search _ _ => edited = false ∧ s.host.Orderly
  | _ => True

/-- The sessions that come about, and whether their documents were edited since the caches were last
cleared. -/
inductive Reached : Session → Bool → Prop
  /-- A new engine works on a host. -/
  | start {capacity : Int} {engine : Engine} (host : Host)
      (h : Engine.create capacity = .ok engine) : Reached ⟨host, engine⟩ false
  /-- Something happens that may come next. -/
  | act {s : Session} {edited : Bool} (a : Act) (hs : Reached s edited)
      (h : s.Permits edited a) : Reached (s.after a) (a.leavesEdited edited)

/-- An edited document is not searched. -/
def Act.MayFollow (edited : Bool) : Act → Prop
  | .search _ _ => edited = false
  | _ => True

/-- What was asked and answered since the caches were last cleared, each query with the host that it
was asked on. -/
def askedAfter (s : Session) (asked : List (Host × String)) : Act → List (Host × String)
  | .search query m => if (s.search query m).1.isOk then (s.host, query) :: asked else asked
  | .clearCaches => []
  | _ => asked

/-- The sessions that come about on hosts of any kind, with what was asked. -/
inductive Arises : Session → Bool → List (Host × String) → Prop
  /-- A new engine works on a host. -/
  | start {capacity : Int} {engine : Engine} (host : Host)
      (h : Engine.create capacity = .ok engine) : Arises ⟨host, engine⟩ false []
  /-- Something happens that may come next. -/
  | act {s : Session} {edited : Bool} {asked : List (Host × String)} (a : Act)
      (hs : Arises s edited asked) (h : a.MayFollow edited) :
      Arises (s.after a) (a.leavesEdited edited) (s.askedAfter asked a)

theorem Reached.arises {s : Session} {edited : Bool} (h : s.Reached edited) :
    ∃ asked, s.Arises edited asked ∧ ∀ p ∈ asked, p.1.Orderly := by
  induction h with
  | start host hcreate => exact ⟨[], .start host hcreate, nofun⟩
  | @act s edited a _ hpermits ih =>
    obtain ⟨asked, harises, hasked⟩ := ih
    cases a with
    | search query m =>
      refine ⟨_, harises.act (.search query m) hpermits.1, fun p hp ↦ ?_⟩
      rw [askedAfter] at hp
      split at hp
      · rcases List.mem_cons.mp hp with rfl | hp
        · exact hpermits.2
        · exact hasked p hp
      · exact hasked p hp
    | clearCaches => exact ⟨_, harises.act .clearCaches trivial, nofun⟩
    | select nodes => exact ⟨_, harises.act (.select nodes) trivial, hasked⟩
    | showPage page => exact ⟨_, harises.act (.showPage page) trivial, hasked⟩
    | hideInstanceChildren hides =>
      exact ⟨_, harises.act (.hideInstanceChildren hides) trivial, hasked⟩
    | edit scene => exact ⟨_, harises.act (.edit scene) trivial, hasked⟩

end Session

/-! ## Hosts with one key -/

private theorem eq_of_map_eq_map {α β : Type} {f : α → β} {a b : List α}
    (hinj : ∀ x ∈ a, ∀ y ∈ b, f x = f y → x = y) (h : a.map f = b.map f) : a = b := by
  induction a generalizing b with
  | nil => simpa using h.symm
  | cons x a ih =>
    cases b with
    | nil => cases h
    | cons y b =>
      obtain ⟨hhead, htail⟩ := List.cons.inj h
      rw [hinj x List.mem_cons_self y List.mem_cons_self hhead,
        ih (fun x hx y hy ↦ hinj x (List.mem_cons_of_mem _ hx) y (List.mem_cons_of_mem _ hy)) htail]

namespace Host.Orderly

variable {host other : Host} {query query' : String} {plan plan' : QueryPlan}

private theorem has_iff_of_scene_eq (hscene : other.document.scene = host.document.scene)
    {s : Spot} :
    other.document.Has s ↔ host.document.Has s := by
  rw [Document.Has, Document.Has, Document.root, Document.root, hscene]

private theorem shows_of_keyOf_eq (hh : host.Orderly) (ho : other.Orderly)
    (hscene : other.document.scene = host.document.scene)
    (hkey : Engine.keyOf other query' = Engine.keyOf host query) :
    other.currentPage = host.currentPage ∧ other.selection = host.selection := by
  obtain ⟨hpage, hrest⟩ := Prod.mk.inj hkey
  obtain ⟨-, hselection⟩ := Prod.mk.inj hrest
  have hhas : ∀ {s}, other.document.Has s → host.document.Has s := (has_iff_of_scene_eq hscene).mp
  refine ⟨hh.document.eq_of_id (hhas ho.currentPage) hh.currentPage hpage, ?_⟩
  exact eq_of_map_eq_map (fun x hx y hy ↦
    hh.document.eq_of_id (hhas (ho.selection x hx)) (hh.selection y hy)) hselection

/-- **The key is enough**: what a search of visible layers finds is the same on all orderly hosts of
a document with one key, whether they hide the invisible children of instances or not. -/
theorem answer_eq_of_keyOf_eq (hh : host.Orderly) (ho : other.Orderly)
    (hscene : other.document.scene = host.document.scene) (hplan : parseQuery query = .ok plan)
    (hplan' : parseQuery query' = .ok plan') (hvisible : plan.modifiers.includesHidden = false)
    (hkey : Engine.keyOf other query' = Engine.keyOf host query) :
    other.answer true plan' = host.answer true plan := by
  obtain ⟨hpage, hselection⟩ := hh.shows_of_keyOf_eq ho hscene hkey
  have htrim := (Prod.mk.inj (Prod.mk.inj hkey).2).1
  have hraw : plan' = { plan with raw := query' } := QueryPlan.eq_of_trim_eq hplan hplan' htrim.symm
  have hpages : other.document.pages = host.document.pages := by
    rw [Document.pages, Document.pages, Document.root, Document.root, hscene]
  have hscopes : other.scopes plan.childSearch = host.scopes plan.childSearch := by
    rw [scopes, scopes, hpage, hselection]
  have hplans : other.answer true plan' = other.answer true plan := by
    rw [hraw]
    rfl
  rw [hplans, answer, answer, hpages, hscopes]
  refine Evaluation.Finder.answer_congr host.document.Has
    (fun _ _ ↦ hh.document.labelled.finder_staysIn) (fun segment hsegment ↦ ?_)
    (fun s hs ↦ (Document.holds_of_mem_pages hs).reaches)
    fun s hs ↦ hh.labelled.has_of_mem_scopes hs
  have hdefault := QueryPlan.visibility_eq_default hplan hvisible segment hsegment
  exact hh.document.finder_agreesOn hdefault other host

end Host.Orderly

/-! ## Hosts that show the same nodes -/

namespace Host

/-- The host shows and selects the nodes that another one does, and unless these are nodes of an
orderly document, it hides invisible children of instances if the other does. -/
structure Matches (other host : Host) : Prop where
  /-- The page is the same node. -/
  currentPage : other.currentPage = host.currentPage
  /-- The selected nodes are the same. -/
  selection : other.selection = host.selection
  /-- Invisible children of instances are hidden by both or by none, if it matters. -/
  skips : other.skipsInstanceChildren = host.skipsInstanceChildren ∨ host.Orderly

theorem Orderly.of_matches {host other : Host} (hh : host.Orderly)
    (hscene : other.document.scene = host.document.scene) (h : other.Matches host) :
    other.Orderly := by
  obtain ⟨⟨scene, index⟩, page, selection, focused, skips⟩ := host
  obtain ⟨⟨scene', index'⟩, page', selection', focused', skips'⟩ := other
  obtain rfl : scene' = scene := hscene
  obtain rfl : page' = page := h.currentPage
  obtain rfl : selection' = selection := h.selection
  exact ⟨⟨hh.document.tree, hh.document.kind_root, hh.document.page_at_top, hh.document.eq_of_id⟩,
    hh.currentPage, hh.selection⟩

/-- **The same nodes are searched with the same result.** -/
theorem Matches.told_trace_eq {host other : Host} {query query' : String} {plan plan' : QueryPlan}
    (h : other.Matches host) (hscene : other.document.scene = host.document.scene)
    (hplan : parseQuery query = .ok plan) (hplan' : parseQuery query' = .ok plan')
    (hvisible : plan.modifiers.includesHidden = false)
    (hkey : Engine.keyOf other query' = Engine.keyOf host query) :
    (plan'.trace other).result.map Response.told = (plan.trace host).result.map Response.told := by
  rcases h.skips with hskips | hh
  · have htrim := (Prod.mk.inj (Prod.mk.inj hkey).2).1
    rw [QueryPlan.eq_of_trim_eq hplan hplan' htrim.symm,
      QueryPlan.trace_congr hscene h.currentPage h.selection hskips]
    rfl
  · have ho := hh.of_matches hscene h
    rw [QueryPlan.result_trace ho.labelled rfl, QueryPlan.result_trace hh.labelled rfl,
      hh.answer_eq_of_keyOf_eq ho hscene hplan hplan' hvisible hkey]

end Host

/-! ## Where remembered answers come from -/

namespace Engine

variable {e : Engine} {host : Host} {query : String} {plan : QueryPlan} {m : Monitor}
  {scene : Scene} {r : Response}

/-- The answer is what a query for visible layers comes to on a host. -/
def Answers (host : Host) (query : String) (r : Response) : Prop :=
  ∃ plan, parseQuery query = .ok plan ∧ plan.modifiers.includesHidden = false ∧
    (plan.trace host Engine.new.settings).result.map Response.told = .ok r.told

/-- What an evaluation comes to is the result of its trace, whatever might have disturbed it. -/
theorem result_of_evaluate (hcadence : m.watch.yieldEvery ≠ 0) (hsettings : e.settings = {})
    (hvisible : plan.modifiers.includesHidden = false)
    (h : (e.evaluate host plan m).1 = .ok r) :
    (plan.trace host).result.map Response.told = .ok r.told := by
  have hcalm := (evaluate_allOrNothing hcadence).ok r h
  have htold : (e.evaluate host plan m.calmed).1.map Response.told =
      (plan.trace (host.exposed plan.modifiers.includesHidden) e.settings).result.map
        Response.told := told_evaluate_eq_result m.calm_calmed hcadence
  rw [hcalm, hsettings, hvisible] at htold
  exact htold.symm

private theorem settings_answer : (e.answer host query plan m).2.1.settings = e.settings := by
  rw [answer]
  split
  · rfl
  · simp only [lookUp]
    cases (e.responses.get (keyOf host query)).1 with
    | some r => rfl
    | none =>
      dsimp only
      split <;> rfl

private theorem settings_search : (e.search host query m).2.1.settings = e.settings := by
  rw [search]
  split
  · rfl
  · split
    · rfl
    · dsimp only
      split
      · rfl
      · exact settings_answer

/-- An answer that is remembered after a search was remembered before, or it is the one that the
search just gave. -/
theorem mem_entries_answer {key : ResponseKey} (hsettings : e.settings = {})
    (hplan : parseQuery query = .ok plan) (hcadence : m.watch.yieldEvery ≠ 0)
    (h : (key, some r) ∈ (e.answer host query plan m).2.1.responses.entries) :
    (key, some r) ∈ e.responses.entries ∨
      keyOf host query = key ∧ Answers host query r ∧
        (e.answer host query plan m).1.isOk = true := by
  rw [answer] at h ⊢
  split at h
  · exact Or.inl h
  · rename_i hvisible
    rw [if_neg hvisible]
    have hbefore : ∀ {k r}, (k, some r) ∈ (e.lookUp (keyOf host query)).2.responses.entries →
        (k, some r) ∈ e.responses.entries := LruCache.mem_of_mem_get
    have hsettings' : (e.lookUp (keyOf host query)).2.settings = {} := hsettings
    dsimp only at h ⊢
    rcases hlookup : e.lookUp (keyOf host query) with ⟨found, after⟩
    rw [hlookup] at h hbefore hsettings'
    cases found with
    | some r => exact Or.inl (hbefore h)
    | none =>
      dsimp only at h ⊢
      split at h
      · exact Or.inl (hbefore h)
      · rename_i answered _ _ heval
        rcases LruCache.mem_of_mem_put h with heq | h
        · obtain ⟨rfl, hr⟩ := Prod.mk.inj heq
          obtain rfl := Option.some.inj hr
          have hvisible : plan.modifiers.includesHidden = false := by simpa using hvisible
          refine Or.inr ⟨rfl, ⟨plan, hplan, hvisible, ?_⟩, rfl⟩
          exact result_of_evaluate hcadence hsettings' hvisible (congrArg Prod.fst heval)
        · exact Or.inl (hbefore h)

theorem mem_entries_search {key : ResponseKey} (hsettings : e.settings = {})
    (h : (key, some r) ∈ (e.search host query m).2.1.responses.entries) :
    (key, some r) ∈ e.responses.entries ∨
      keyOf host query = key ∧ Answers host query r ∧ (e.search host query m).1.isOk = true := by
  rw [search] at h ⊢
  cases hplan : parseQuery query with
  | error cause =>
    rw [hplan] at h
    exact Or.inl h
  | ok plan =>
    rw [hplan] at h
    dsimp only at h ⊢
    split at h
    · exact Or.inl h
    · rename_i hempty
      rw [if_neg hempty]
      split at h
      · exact Or.inl h
      · exact mem_entries_answer hsettings hplan (yieldEvery_begin plan m) h

/-- A search tells what it tells with a new engine, if a remembered answer is the result of its
trace. -/
theorem told_search_eq_new (hsettings : e.settings = {}) (hm : m.Calm)
    (hrecalled : ∀ plan r, parseQuery query = .ok plan → plan.modifiers.includesHidden = false →
      (e.responses.get (keyOf host query)).1 = some r →
        (plan.trace host).result.map Response.told = .ok r.told) :
    (e.search host query m).1.map Response.told =
      (Engine.new.search host query m).1.map Response.told := by
  cases hplan : parseQuery query with
  | error cause => simp only [search, hplan]
  | ok plan =>
    cases hempty : plan.isEmpty with
    | true =>
      have hnew : (Engine.new.search host query m).1 = _ := outcome_search hm hplan
      rw [hnew, outcome_search hm hplan, hempty, if_pos rfl, if_pos rfl]
    | false =>
      rw [told_search_new hm hplan hempty, outcome_search hm hplan, hempty,
        if_neg Bool.false_ne_true]
      cases hfound : e.recalled host query plan with
      | none =>
        refine (told_evaluate_eq_result (calm_begin hm plan) (yieldEvery_begin plan m)).trans ?_
        rw [hsettings]
      | some r =>
        rw [recalled] at hfound
        split at hfound
        · cases hfound
        · rename_i hvisible
          have hvisible : plan.modifiers.includesHidden = false := by simpa using hvisible
          have hresult := hrecalled plan r hplan hvisible hfound
          rw [hvisible]
          exact hresult.symm

/-! ### Truthful engines -/

/-- Every remembered answer is the one of each orderly host of the scene with its key. -/
def Truthful (e : Engine) (scene : Scene) : Prop :=
  ∀ key r, (key, some r) ∈ e.responses.entries →
    ∀ (host : Host) (query : String) (plan : QueryPlan),
      host.document.scene = scene → host.Orderly → parseQuery query = .ok plan →
        plan.modifiers.includesHidden = false → keyOf host query = key →
          host.answer true plan = .ok r.told

private theorem answer_of_recalled (h : e.Truthful host.document.scene) (hh : host.Orderly)
    (hplan : parseQuery query = .ok plan) (hr : e.recalled host query plan = some r) :
    plan.modifiers.includesHidden = false ∧ host.answer true plan = .ok r.told := by
  rw [recalled] at hr
  split at hr
  · cases hr
  · rename_i hvisible
    have hvisible : plan.modifiers.includesHidden = false := by simpa using hvisible
    exact ⟨hvisible, h _ r (LruCache.mem_of_get hr) host query plan rfl hh hplan hvisible rfl⟩

theorem Truthful.told_search (h : e.Truthful host.document.scene) (hsettings : e.settings = {})
    (hh : host.Orderly) (hm : m.Calm) (hplan : parseQuery query = .ok plan) :
    (e.search host query m).1.map Response.told =
      (host.exposed plan.modifiers.includesHidden).answer true plan := by
  have hpools : e.settings.pools.entries = [] := by rw [hsettings]; rfl
  have hbulk : e.settings.bulk = true := by rw [hsettings]
  rw [Engine.told_search hh.labelled hm hpools hplan, hbulk]
  intro r hr
  obtain ⟨hvisible, hanswer⟩ := answer_of_recalled h hh hplan hr
  rw [hbulk, hvisible]
  exact hanswer

end Engine

/-! ## Whole sessions -/

namespace Session

variable {s : Session} {edited : Bool} {asked : List (Host × String)}

/-- What a session keeps up: the settings are the usual ones, and unless the document was edited,
what was asked was asked of the document as it is, and is where remembered answers come from. -/
structure Recalls (s : Session) (edited : Bool) (asked : List (Host × String)) : Prop where
  /-- The settings are the usual ones. -/
  settings : s.engine.settings = {}
  /-- The document is the one that was asked. -/
  scene : edited = false → ∀ p ∈ asked, p.1.document.scene = s.host.document.scene
  /-- Remembered answers were given to what was asked. -/
  answers : edited = false → ∀ key r, (key, some r) ∈ s.engine.responses.entries →
    ∃ p ∈ asked, Engine.keyOf p.1 p.2 = key ∧ Engine.Answers p.1 p.2 r

theorem after_search (s : Session) (query : String) (m : Monitor) :
    s.after (.search query m) = ⟨s.host, (s.engine.search s.host query m).2.1⟩ := by
  have hhost : (s.engine.search s.host query m).2.2.1 = s.host := Engine.host_search
  rw [Session.after, search_eq, hhost]

/-- A search adds at most what it was asked, and remembers an answer only if it adds it. -/
theorem Recalls.after_search (h : s.Recalls false asked) (query : String) (m : Monitor) :
    (s.after (.search query m)).Recalls false (s.askedAfter asked (.search query m)) := by
  have hsettings : (s.engine.search s.host query m).2.1.settings = {} :=
    Engine.settings_search.trans h.settings
  have hentries : ∀ key r,
      (key, some r) ∈ (s.engine.search s.host query m).2.1.responses.entries →
        (key, some r) ∈ s.engine.responses.entries ∨
          Engine.keyOf s.host query = key ∧ Engine.Answers s.host query r ∧
            (s.engine.search s.host query m).1.isOk = true := fun _ _ ↦
    Engine.mem_entries_search h.settings
  rw [Session.after_search, askedAfter, search_eq]
  generalize s.engine.search s.host query m = result at hsettings hentries
  by_cases hok : result.1.isOk = true
  · rw [if_pos hok]
    refine ⟨hsettings, fun _ ↦ List.forall_mem_cons.mpr ⟨rfl, h.scene rfl⟩, fun _ key r hmem ↦ ?_⟩
    rcases hentries key r hmem with hmem | ⟨hkey, hanswers, -⟩
    · obtain ⟨p, hp, hgave⟩ := h.answers rfl key r hmem
      exact ⟨p, List.mem_cons_of_mem _ hp, hgave⟩
    · exact ⟨(s.host, query), List.mem_cons_self, hkey, hanswers⟩
  · rw [if_neg hok]
    refine ⟨hsettings, fun _ ↦ h.scene rfl, fun _ key r hmem ↦ ?_⟩
    rcases hentries key r hmem with hmem | ⟨-, -, hok'⟩
    · exact h.answers rfl key r hmem
    · exact absurd hok' hok

/-- **One act** keeps up what a session keeps up. -/
theorem Recalls.after (h : s.Recalls edited asked) (a : Act) (hfollows : a.MayFollow edited) :
    (s.after a).Recalls (a.leavesEdited edited) (s.askedAfter asked a) := by
  cases a with
  | search query m =>
    obtain rfl : edited = false := hfollows
    exact h.after_search query m
  | select nodes => exact ⟨h.settings, h.scene, h.answers⟩
  | showPage page =>
    simp only [Session.after, Host.setCurrentPage]
    split
    · rename_i heq
      split at heq
      · cases heq
        exact ⟨h.settings, h.scene, h.answers⟩
      · cases heq
    · exact h
  | hideInstanceChildren hides => exact ⟨h.settings, h.scene, h.answers⟩
  | clearCaches => exact ⟨h.settings, fun _ ↦ nofun, fun _ ↦ nofun⟩
  | edit scene =>
    -- nothing is promised of answers until the caches are cleared
    exact ⟨h.settings, nofun, nofun⟩

theorem Arises.recalls (h : s.Arises edited asked) : s.Recalls edited asked := by
  induction h with
  | @start capacity engine host hcreate =>
    rw [Engine.create] at hcreate
    split at hcreate
    · cases hcreate
    · rename_i responses hempty
      cases hcreate
      refine ⟨rfl, fun _ ↦ nofun, fun _ key r hmem ↦ ?_⟩
      have hentries : responses.entries = [] := LruCache.entries_of_create hempty
      change (key, some r) ∈ responses.entries at hmem
      rw [hentries] at hmem
      cases hmem
  | act a _ hfollows ih => exact ih.after a hfollows

/-- What a session keeps up that is searched on orderly hosts only: the settings are the usual ones,
and unless the document was edited every remembered answer is true of it. -/
structure KeepsUp (s : Session) (edited : Bool) : Prop where
  /-- The settings are the usual ones. -/
  settings : s.engine.settings = {}
  /-- Remembered answers are true. -/
  truthful : edited = false → s.engine.Truthful s.host.document.scene

theorem Reached.keepsUp (h : s.Reached edited) : s.KeepsUp edited := by
  obtain ⟨asked, harises, horderly⟩ := h.arises
  have hrecalls := harises.recalls
  refine ⟨hrecalls.settings, fun hedited key r hmem host query plan hscene hh hplan hvisible hkey ↦
    ?_⟩
  obtain ⟨p, hp, hkey', plan', hplan', -, hresult⟩ := hrecalls.answers hedited key r hmem
  have hresult : (plan'.trace p.1).result.map Response.told = .ok r.told := hresult
  have ho := horderly p hp
  have hscene' := (hrecalls.scene hedited p hp).trans hscene.symm
  rw [QueryPlan.result_trace ho.labelled rfl,
    hh.answer_eq_of_keyOf_eq ho hscene' hplan hplan' hvisible (hkey'.trans hkey.symm)] at hresult
  cases hanswer : host.answer true plan with
  | error fault =>
    rw [hanswer] at hresult
    cases hresult
  | ok found =>
    rw [hanswer] at hresult
    exact hresult

/-- **Caches are transparent** as long as ids name the same nodes. However a session came about, by
searches, disturbed or not, by other selections, pages and flags, by clearing caches, and by edits
that were followed by it: a search that nothing disturbs tells what it tells with a new engine on
the same host, be it an answer or a failure, if the searches with its key that were answered since
the caches were last cleared were made on the same nodes. -/
theorem told_search_eq_told_search_new (h : s.Arises false asked) (query : String)
    (hasked : ∀ p ∈ asked, Engine.keyOf p.1 p.2 = Engine.keyOf s.host query → p.1.Matches s.host)
    {m : Monitor} (hm : m.Calm) :
    (s.search query m).1.map Response.told =
      (({ s with engine := .new } : Session).search query m).1.map Response.told := by
  have hrecalls := h.recalls
  rw [search_eq, search_eq]
  dsimp only
  refine Engine.told_search_eq_new hrecalls.settings hm fun plan r hplan hvisible hr ↦ ?_
  obtain ⟨p, hp, hkey, plan', hplan', -, hresult⟩ :=
    hrecalls.answers rfl _ r (LruCache.mem_of_get hr)
  have hresult : (plan'.trace p.1).result.map Response.told = .ok r.told := hresult
  rw [← hresult, (hasked p hp hkey).told_trace_eq (hrecalls.scene rfl p hp) hplan hplan' hvisible
    hkey]

/-- For instance a search that is repeated with blanks around it on a host that no longer hides
anything. -/
theorem told_search_eq_told_search_new_cards :
    let s := ((⟨.ofCards, .new⟩ : Session).after (.search "Title" {})).after
      (.hideInstanceChildren false)
    (s.search " Title " {}).1.map Response.told =
      (({ s with engine := .new } : Session).search " Title " {}).1.map Response.told := by
  have hstart : (⟨.ofCards, .new⟩ : Session).Arises false [] :=
    .start .ofCards Engine.create_responseCapacity
  have hsearched := hstart.act (.search "Title" {}) rfl
  refine told_search_eq_told_search_new (hsearched.act (.hideInstanceChildren false) trivial)
    " Title " (fun p hp _ ↦ ?_) Monitor.calm_default
  obtain rfl : p = (.ofCards, "Title") := by
    simp only [askedAfter] at hp
    split at hp
    · exact List.mem_singleton.mp hp
    · cases hp
  rw [after_search]
  exact ⟨rfl, rfl, Or.inr
    ⟨Host.orderly_ofCards.document, Host.orderly_ofCards.currentPage, nofun⟩⟩

end Session

end SceneSearch
