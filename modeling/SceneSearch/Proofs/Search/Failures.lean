import SceneSearch.Proofs.Scene.Import
import SceneSearch.Proofs.Search.Ranking
import SceneSearch.Proofs.Search.ResultOrder

/-!
# How searches fail

A search that nothing disturbs fails in one way only: nodes are to be brought into reading order by
rows, and their heights have no average that is a number, so that no row can be measured. The ranks
that a query can ask for are never out of range, and without a rank nothing is brought into reading
order at all. `FailsOnly` follows failures through the parts of an answer, as `Yields` does results.

Imports do not keep such heights out: they may be infinite, or no numbers, and finite ones may add
up to infinity. `search_fails_on_tall_cards` is a search that fails for two cards of finite heights.
-/

namespace SceneSearch

open Evaluation

/-! ## Failures of parts -/

/-- If there is a failure, it has a property. -/
def FailsOnly {ε α : Type} (r : Except ε α) (P : ε → Prop) : Prop :=
  ∀ fault, r = .error fault → P fault

namespace FailsOnly

variable {ε ε' α β : Type} {P Q : ε → Prop} {P' : ε' → Prop} {r : Except ε α}

theorem of_ok {a : α} : FailsOnly (.ok a : Except ε α) P := nofun

theorem imp (h : FailsOnly r P) (hPQ : ∀ fault, P fault → Q fault) : FailsOnly r Q :=
  fun fault hfault ↦ hPQ fault (h fault hfault)

theorem bind {f : α → Except ε β} (hr : FailsOnly r P)
    (hf : ∀ a, r = .ok a → FailsOnly (f a) P) : FailsOnly (r >>= f) P := by
  cases r with
  | error fault =>
    rintro _ ⟨⟩
    exact hr fault rfl
  | ok a => exact hf a rfl

theorem map {f : α → β} (hr : FailsOnly r P) : FailsOnly (r.map f) P := by
  cases r with
  | error fault =>
    rintro _ ⟨⟩
    exact hr fault rfl
  | ok a => exact of_ok

private theorem mapError {f : ε → ε'} (hr : FailsOnly r fun fault ↦ P' (f fault)) :
    FailsOnly (r.mapError f) P' := by
  cases r with
  | error fault =>
    rintro _ ⟨⟩
    exact hr fault rfl
  | ok a => exact of_ok

private theorem mapM {f : β → Except ε α} {items : List β} (hf : ∀ b ∈ items, FailsOnly (f b) P) :
    FailsOnly (items.mapM f) P := by
  induction items with
  | nil => exact of_ok
  | cons b rest ih =>
    have hrest := ih fun c hc ↦ hf c (List.mem_cons_of_mem b hc)
    rw [List.mapM_cons]
    exact (hf b List.mem_cons_self).bind fun a _ ↦ hrest.bind fun as _ ↦ of_ok

end FailsOnly

/-! ## Rows that cannot be measured -/

/-- Different nodes of the document whose positions are known and whose heights have no measure. -/
def Document.Unmeasured (d : Document) (fault : SearchFault) : Prop :=
  ∃ cause candidates, fault = .rows cause ∧ candidates.Nodup ∧
    (∀ s ∈ candidates, d.Has s ∧ s.layer.hasGeometry = true) ∧
    RowMeasure.ofSpots candidates = .error cause

/-- A choice that counts on from the first item, or is the last one. -/
def RankPick.Counts (pick : RankPick) : Prop := 0 ≤ pick.index

section

variable {d : Document} {spots : List Spot} {scope : Option Spot} {pick : RankPick}

private theorem failsOnly_assign (spots : List Spot) :
    FailsOnly (Rows.assign spots) fun cause ↦ RowMeasure.ofSpots spots = .error cause := by
  rw [Rows.assign]
  split
  · exact .of_ok
  · refine FailsOnly.bind (fun _ h ↦ h) fun measure _ ↦ ?_
    split <;> exact .of_ok

private theorem failsOnly_sortVisually (hspots : ∀ s ∈ spots, d.Has s) (hnodup : spots.Nodup) :
    FailsOnly (sortVisually spots scope) fun cause ↦ d.Unmeasured (.rows cause) := by
  rw [sortVisually, VisualOrder.forCandidates]
  refine .map ?_
  split
  · exact .of_ok
  · rename_i hgeometry
    have hgeometry' : ∀ s ∈ spots, s.layer.hasGeometry = true := by simpa using hgeometry
    split
    · exact .of_ok
    · have hrows : FailsOnly (Rows.assign spots) fun cause ↦ d.Unmeasured (.rows cause) :=
        (failsOnly_assign spots).imp fun cause h ↦
          ⟨cause, spots, rfl, hnodup, fun s hs ↦ ⟨hspots s hs, hgeometry' s hs⟩, h⟩
      exact .map (hrows.bind fun _ _ ↦ .of_ok)

/-- A choice by a rank that is not negative fails only where there is no reading order. -/
theorem failsOnly_choose (hpick : pick.Counts) (hspots : ∀ s ∈ spots, d.Has s)
    (hnodup : spots.Nodup) : FailsOnly (choose pick spots scope) d.Unmeasured := by
  rw [choose]
  refine (failsOnly_sortVisually hspots hnodup).mapError.bind fun sorted _ ↦ ?_
  obtain ⟨which, index⟩ := pick
  obtain ⟨k, rfl⟩ := Int.eq_ofNat_of_zero_le hpick
  rw [RankPick.choose_natCast]
  exact .of_ok

end

/-! ## Ranks of plans -/

namespace QueryPlan

variable {plan : QueryPlan} {query : String}

/-- The plan asks for a rank somewhere. -/
def Ranks (plan : QueryPlan) : Prop :=
  plan.finalPick.isSome ∨ ∃ segment ∈ plan.segments, segment.pick.isSome

private theorem counts_of_pickFor {m : QueryModifiers} {piece : CleanPiece} {isFinal : Bool}
    {pick : RankPick} (h : pickFor m piece isFinal = some pick) : pick.Counts := by
  rw [pickFor] at h
  rw [RankPick.Counts]
  split at h
  · cases h
  · split at h
    · split at h
      · cases h
        exact Int.natCast_nonneg _
      · split at h
        · cases h
          exact Int.one_nonneg
        · cases h
    · split at h
      · cases h
        exact Int.natCast_nonneg _
      · obtain ⟨index, hindex, rfl⟩ := Option.map_eq_some_iff.mp h
        obtain ⟨n, -, hn⟩ := Option.bind_eq_some_iff.mp hindex
        obtain rfl := Option.some.inj hn
        exact Int.natCast_nonneg n

private theorem counts_of_mem_segmentsOf {m : QueryModifiers} {isFirst : Bool}
    {placed : List PlacedPiece} :
    ∀ segment ∈ segmentsOf m isFirst placed, ∀ pick, segment.pick = some pick → pick.Counts := by
  induction placed generalizing isFirst with
  | nil => simp [segmentsOf]
  | cons p rest ih =>
    intro segment hsegment pick hpick
    rcases List.mem_cons.mp hsegment with rfl | hsegment
    · exact counts_of_pickFor hpick
    · exact ih segment hsegment pick hpick

/-- **No query asks for a rank below zero**, of a segment or at its end. -/
theorem counts_of_parseQuery (h : parseQuery query = .ok plan) :
    (∀ segment ∈ plan.segments, ∀ pick, segment.pick = some pick → pick.Counts) ∧
      ∀ pick, plan.finalPick = some pick → pick.Counts := by
  obtain ⟨pieces, -, rfl⟩ := exists_ofPieces h
  rw [ofPieces_eq]
  refine ⟨counts_of_mem_segmentsOf, fun pick hpick ↦ ?_⟩
  rw [assembled] at hpick
  dsimp only at hpick
  split at hpick
  · cases hpick
  · split at hpick
    · cases hpick
    · cases hpick
      exact Int.natCast_nonneg _

end QueryPlan

/-! ## Answers -/

namespace Evaluation.Finder

variable {host : Host} {segment : SegmentPlan} {segments : List SegmentPlan} {scopes : List Spot}
  {found : List Found} {bulk allowSelf childSearch : Bool} {plan : QueryPlan}

private theorem failsOnly_segmentAnswer (hh : host.Labelled)
    (hscopes : ∀ s ∈ scopes, host.document.Has s)
    (hpick : ∀ pick, segment.pick = some pick → pick.Counts) :
    FailsOnly ((finder bulk host).segmentAnswer segment allowSelf scopes) fun fault ↦
      segment.pick.isSome ∧ host.document.Unmeasured fault := by
  rw [segmentAnswer]
  split
  · rename_i pick heq
    have hcounts := hpick pick heq
    have himp : ∀ fault, host.document.Unmeasured fault →
        segment.pick.isSome ∧ host.document.Unmeasured fault := fun fault h ↦
      ⟨by rw [heq]; rfl, h⟩
    split
    · have hspots : ∀ s ∈ distinctSpots (scopes.flatMap (finder bulk host segment allowSelf)),
          host.document.Has s := fun s hs ↦
        reaches_of_mem_flatMap hh.document.tree hscopes (mem_of_firstOccurrences hs)
      exact .map ((failsOnly_choose hcounts hspots (nodup_distinctSpots _)).imp himp)
    · refine .map (.mapM fun scope hscope ↦ ?_)
      have hsub : ((finder bulk host) segment allowSelf scope).Sublist scope.subtree :=
        finder_sublist hh.document.tree (hscopes scope hscope)
      have hspots : ∀ s ∈ finder bulk host segment allowSelf scope, host.document.Has s :=
        hh.document.finder_staysIn allowSelf scope (hscopes scope hscope)
      exact .map ((failsOnly_choose hcounts hspots
        ((hh.document.tree.nodup_subtree (hscopes scope hscope)).sublist hsub)).imp himp)
  · exact .of_ok

private theorem failsOnly_segmentsAnswer (hh : host.Labelled)
    (hscopes : ∀ s ∈ scopes, host.document.Has s)
    (hpick : ∀ segment ∈ segments, ∀ pick, segment.pick = some pick → pick.Counts) :
    FailsOnly ((finder bulk host).segmentsAnswer childSearch found scopes segments) fun fault ↦
      (∃ segment ∈ segments, segment.pick.isSome) ∧ host.document.Unmeasured fault := by
  induction segments generalizing found scopes with
  | nil => exact .of_ok
  | cons segment rest ih =>
    rw [segmentsAnswer]
    refine ((failsOnly_segmentAnswer hh hscopes (hpick segment List.mem_cons_self)).imp
      fun fault h ↦ ⟨⟨segment, List.mem_cons_self, h.1⟩, h.2⟩).bind fun found' hfound' ↦ ?_
    split
    · exact .of_ok
    · -- what was found are nodes of the document again
      have hhas : ∀ s ∈ found'.map Found.spot, host.document.Has s := by
        intro s hs
        obtain ⟨f, hf, rfl⟩ := List.mem_map.mp hs
        exact hh.document.finder_staysIn.segmentAnswer hscopes _ found' hfound' f hf
      refine (ih hhas fun segment h ↦ hpick segment (List.mem_cons_of_mem _ h)).imp ?_
      rintro fault ⟨⟨segment', hsegment, hsome⟩, h⟩
      exact ⟨⟨segment', List.mem_cons_of_mem _ hsegment, hsome⟩, h⟩

private theorem failsOnly_finish {d : Document}
    (hpick : ∀ pick, plan.finalPick = some pick → pick.Counts)
    (hfound : ∀ f ∈ found, d.Has f.spot) (hunrepeated : Unrepeated found) :
    FailsOnly (finish plan found) fun fault ↦ plan.finalPick.isSome ∧ d.Unmeasured fault := by
  rw [finish]
  split
  · rename_i pick heq
    split
    · exact .of_ok
    · have hspots : ∀ s ∈ (found.filter (·.spot.kind ≠ .page)).map Found.spot, d.Has s := by
        intro s hs
        obtain ⟨f, hf, rfl⟩ := List.mem_map.mp hs
        exact hfound f (List.mem_filter.mp hf).1
      have hnodup : ((found.filter (·.spot.kind ≠ .page)).map Found.spot).Nodup := by
        refine List.Nodup.of_map Spot.place ?_
        rw [List.map_map]
        exact hunrepeated.sublist List.filter_sublist
      exact FailsOnly.bind ((failsOnly_choose (hpick pick heq) hspots hnodup).imp fun fault h ↦
        ⟨by rw [heq]; rfl, h⟩) fun chosen _ ↦ .of_ok
  · exact .of_ok

/-- **An answer fails only where nodes have no rows**, and only if the plan asks for a rank. -/
theorem failsOnly_answer (hh : host.Labelled)
    (hsegments : ∀ segment ∈ plan.segments, ∀ pick, segment.pick = some pick → pick.Counts)
    (hfinal : ∀ pick, plan.finalPick = some pick → pick.Counts) :
    FailsOnly (host.answer bulk plan) fun fault ↦
      plan.Ranks ∧ host.document.Unmeasured fault := by
  rw [Host.answer, answer_eq]
  cases hstart : plan.start? host.document.pages (host.scopes plan.childSearch) with
  | none => exact .of_ok
  | some start =>
    obtain ⟨hhas, hfound⟩ := hh.has_of_start? hstart
    have hsteps : FailsOnly ((finder bulk host).segmentsAnswer plan.childSearch start.found
        start.scopes plan.steps) fun fault ↦ plan.Ranks ∧ host.document.Unmeasured fault := by
      refine (failsOnly_segmentsAnswer hh hhas fun segment h ↦
        hsegments segment (QueryPlan.mem_segments_of_mem_steps h)).imp ?_
      rintro fault ⟨⟨segment, hsegment, hsome⟩, h⟩
      exact ⟨Or.inr ⟨segment, QueryPlan.mem_segments_of_mem_steps hsegment, hsome⟩, h⟩
    refine hsteps.bind fun found hkept ↦ ?_
    have hleads : ∀ segment ∈ plan.steps,
        (finder bulk host).Leads host.document.Has host.document.Has segment :=
      fun segment _ ↦ hh.document.finder_staysIn
    have hspots : ∀ f ∈ found, host.document.Has f.spot := by
      intro f hf
      rcases Leads.segmentsAnswer hleads (fun _ h ↦ h) hhas plan.childSearch start.found found
        hkept f hf with hf | hhas'
      · exact hhas f.spot (hfound (List.mem_map_of_mem hf))
      · exact hhas'
    have hunrepeated := yields_unrepeated_segmentsAnswer hstart found hkept
    exact ((failsOnly_finish hfinal hspots hunrepeated).imp fun fault h ↦
      ⟨Or.inl h.1, h.2⟩).bind fun final _ ↦ .of_ok

end Evaluation.Finder

/-! ## Searches -/

theorem Document.labelled_host {v : Json} {host : Host}
    (hv : Document.ofExport v = .ok host.document)
    (hpage : host.currentPage ∈ host.document.pages)
    (hselection : ∀ s ∈ host.selection, host.document.Has s) : host.Labelled where
  document := Document.labelled_of_ofExport hv
  currentPage := (Document.holds_of_mem_pages hpage).reaches
  selection := hselection

variable {e : Engine} {host : Host} {query : String} {plan : QueryPlan} {m : Monitor} {v : Json}

/-- **How a search of an imported document fails.** Undisturbed, it gives a response, or it asks for
a rank among nodes with known positions whose heights have no measure, and fails for that. -/
theorem Engine.search_responds_or_unmeasured (hv : Document.ofExport v = .ok host.document)
    (hpage : host.currentPage ∈ host.document.pages)
    (hselection : ∀ s ∈ host.selection, host.document.Has s) (hplan : parseQuery query = .ok plan)
    (hpools : e.settings.pools.entries = []) (hm : m.Calm) :
    (∃ r, (e.search host query m).1 = .ok r) ∨
      plan.Ranks ∧ ∃ cause candidates, (e.search host query m).1 = .error (.rows cause) ∧
        candidates.Nodup ∧
        (∀ s ∈ candidates, host.document.Has s ∧ s.layer.hasGeometry = true) ∧
        RowMeasure.ofSpots candidates = .error cause := by
  have hh : host.Labelled := Document.labelled_host hv hpage hselection
  rw [outcome_search hm hplan]
  split
  · exact Or.inl ⟨_, rfl⟩
  · cases e.recalled host query plan with
    | some r => exact Or.inl ⟨_, rfl⟩
    | none =>
      obtain ⟨hdocument, -⟩ := host.exposed_fields plan.modifiers.includesHidden
      obtain ⟨hsegments, hfinal⟩ := QueryPlan.counts_of_parseQuery hplan
      have hfails : FailsOnly
          ((host.exposed plan.modifiers.includesHidden).answer e.settings.bulk plan) _ :=
        Finder.failsOnly_answer (hh.exposed plan.modifiers.includesHidden) hsegments hfinal
      rw [hdocument, ← told_evaluate hh (calm_begin hm plan) (yieldEvery_begin plan m) hpools]
        at hfails
      dsimp only
      cases hanswer : (e.evaluate host plan (begin plan m)).1 with
      | ok r => exact Or.inl ⟨r, rfl⟩
      | error fault =>
        rw [hanswer] at hfails
        obtain ⟨hranks, cause, candidates, rfl, hcandidates⟩ := hfails fault rfl
        exact Or.inr ⟨hranks, cause, candidates, rfl, hcandidates⟩

/-- For instance a search in the small document: no position is known there, so it cannot fail. -/
theorem Engine.search_responds_or_unmeasured_cards :
    ∃ r, (Engine.new.search .ofCards "Title --1" {}).1 = .ok r := by
  obtain ⟨plan, hplan⟩ := exists_of_isOk
    (show (parseQuery "Title --1").isOk = true by decide +kernel)
  rcases @search_responds_or_unmeasured .new .ofCards "Title --1" plan {} .cards
    Document.ofExport_cards (List.mem_singleton.mpr rfl) nofun hplan rfl Monitor.calm_default with
    hr | ⟨-, cause, candidates, -, -, hknown, hmeasure⟩
  · exact hr
  · cases candidates with
    | nil =>
      have hempty : (RowMeasure.ofSpots []).isOk = true := by decide +kernel
      rw [hmeasure] at hempty
      cases hempty
    | cons s rest =>
      obtain ⟨hs, hgeometry⟩ := hknown s List.mem_cons_self
      have hmem := (Document.orderly_cards.tree.mem_subtree_iff (.refl _)).mpr hs
      have hnowhere : ∀ t ∈ Document.cards.root.subtree, t.layer.hasGeometry = false := by
        decide +kernel
      rw [hnowhere s hmem] at hgeometry
      cases hgeometry

/-! ## Heights without an average -/

/-- A card of a height that is finite, but more than half of the greatest one. -/
def Node.tallCard (id : String) (left : Float) : Node :=
  ⟨{ id, kind := .frame, name := "Card", x := some left, y := some 0, height := some 1.5e308 }, []⟩

/-- A page with two of them. -/
def Node.tallPage : Node :=
  ⟨{ id := "1:1", kind := .page, name := "Home" }, [.tallCard "1:2" 0, .tallCard "1:3" 100]⟩

/-- The export of a document with that page. -/
def Json.tallCards : Json :=
  let card (id : String) (left : Float) : Json :=
    .object [("id", .string id), ("type", .string "FRAME"), ("name", .string "Card"),
      ("x", .float left), ("y", .float 0), ("height", .float 1.5e308)]
  .object [("id", .string "0:0"), ("name", .string "Doc"), ("pages", .array [
    .object [("id", .string "1:1"), ("type", .string "PAGE"), ("name", .string "Home"),
      ("children", .array [card "1:2" 0, card "1:3" 100])]])]

/-- The document. -/
def Document.tallCards : Document :=
  .ofRoot ⟨{ id := "0:0", kind := .document, name := "Doc" }, [.tallPage]⟩

/-- The host that shows its page. -/
def Host.ofTallCards : Host :=
  { document := .tallCards, currentPage := Document.tallCards.root.child 0 .tallPage }

private theorem eq_error_of_fails {ε α : Type} [DecidableEq ε] {r : Except ε α} {fault : ε}
    (h : (match r with | .ok _ => false | .error cause => decide (cause = fault)) = true) :
    r = .error fault := by
  cases r with
  | ok a => cases h
  | error cause => rw [of_decide_eq_true h]

/-- **A search may fail on what an import lets in**: the heights of two cards add up to infinity,
and their average has no part that is an integer. -/
theorem search_fails_on_tall_cards :
    Document.ofExport .tallCards = .ok Host.ofTallCards.document ∧
      Host.ofTallCards.currentPage ∈ Host.ofTallCards.document.pages ∧
      (∀ s ∈ Host.ofTallCards.selection, Host.ofTallCards.document.Has s) ∧
      (parseQuery "@Card --1").isOk = true ∧ ({} : Monitor).Calm ∧
      (Engine.new.search .ofTallCards "@Card --1" {}).1 = .error (.rows .infinite) := by
  refine ⟨(Document.ofExport_eq_checked rfl).trans rfl, List.mem_singleton.mpr rfl, nofun,
    by decide +kernel, Monitor.calm_default, ?_⟩
  exact eq_error_of_fails (by decide +kernel)

end SceneSearch
