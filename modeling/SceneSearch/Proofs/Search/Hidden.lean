import SceneSearch.Proofs.Scene.Import
import SceneSearch.Proofs.Search.Caching

/-!
# Hidden layers

Without `--h` and `--a` a search leaves hidden layers out, with all that is below them. What that
means is told by the way up from a layer that is found to the scope in which the search started:
`SeenFrom` says that nothing on it is hidden. The searches below one scope differ in how they see to
that, by leaving hidden parts out or by looking up; `seen_of_mem_finder` treats them alike, and
`SeenFrom.trans` puts the ways of several segments together.

A look up ends at the first page or document, whatever the scope is. So nothing is said of what is
hidden above a page that stands below the scope, nor of that page itself. For a scope that holds
only layers this makes no difference. It does for the root of a document, and for a layer with a
page below it: `search_sees_hidden_page` is a search that finds a layer on a hidden page.
-/

namespace SceneSearch

open Evaluation

/-! ## Ways up without hidden layers -/

/-- Between `u` and `t` there is no page and no document, these two included. -/
def Spot.OnlyLayersTo (u t : Spot) : Prop :=
  ∀ p : Spot, u.Reaches p → p.Reaches t → p.kind.isRootLike = false

/-- Seen from `s`, the node is visible: on the way up from it nothing strictly below `s` is hidden,
until the way comes to a page or a document. -/
def Spot.SeenFrom (s t : Spot) : Prop :=
  s.Reaches t ∧ ∀ u : Spot, s.Holds u → u.Reaches t → u.OnlyLayersTo t → u.visible = true

namespace Spot

variable {r s t p u : Spot}

theorem SeenFrom.refl (ht : r.IsTree) (hs : r.Reaches s) : s.SeenFrom s := by
  refine ⟨.refl s, fun u hsu hus _ ↦ ?_⟩
  exact absurd (hsu.trans_left hus) (ht.not_holds_self hs)

theorem SeenFrom.trans (ht : r.IsTree) (hs : r.Reaches s) (hst : s.SeenFrom t)
    (htp : t.SeenFrom p) : s.SeenFrom p := by
  obtain ⟨hreach, hseen⟩ := hst
  obtain ⟨hreach', hseen'⟩ := htp
  refine ⟨hreach.trans hreach', fun u hsu hup hlayers ↦ ?_⟩
  -- a node on the whole way is on its upper part, or on the lower one
  rcases ht.reaches_or_holds (hs.trans hsu.reaches) (hs.trans hreach) hup hreach' with hut | htu
  · exact hseen u hsu hut fun q huq hqt ↦ hlayers q huq (hqt.trans hreach')
  · exact hseen' u htu hup hlayers

/-- A look up ends at the scope, or at a page or a document before. -/
theorem IsTree.seenFrom_of_isEffectivelyVisible (ht : r.IsTree) (hs : r.Reaches s)
    (hst : s.Reaches t) (h : t.isEffectivelyVisible (some s) = true) : s.SeenFrom t := by
  induction hst with
  | refl => exact .refl ht hs
  | @tail p t hsp hpt ih =>
    have hreach : s.Reaches t := hsp.tail hpt
    cases hkind : t.kind.isRootLike with
    | true =>
      -- the look up ends at once, and the way up as well
      refine ⟨hreach, fun u _ hut hlayers ↦ ?_⟩
      rw [hlayers t hut (.refl t)] at hkind
      cases hkind
    | false =>
      rw [isEffectivelyVisible, ht.belowScope_of_mem_children hs hsp hpt hkind, List.all_cons,
        Bool.and_eq_true] at h
      refine ⟨hreach, fun u hsu hut hlayers ↦ ?_⟩
      rcases reaches_iff_eq_or_holds.mp hut with rfl | hut
      · exact h.1
      · obtain ⟨q, huq, hqt⟩ := holds_iff_exists_parent.mp hut
        obtain rfl := ht.parent_unique (hs.trans (hsu.reaches.trans huq)) (hs.trans hsp) hqt hpt
        exact (ih h.2).2 u hsu huq fun a hua haq ↦ hlayers a hua (haq.child hqt)

end Spot

/-! ## One scope -/

section

variable {d : Document} {s t : Spot} {segment : SegmentPlan} {matcher : NameMatcher} {host : Host}
  {bulk allowSelf : Bool}

private theorem visible_of_mem_ownMatches (hd : d.Labelled) (hs : d.Has s)
    (hdefault : segment.visibility = .default) (h : t ∈ ownMatches segment matcher s) :
    t = s ∧ t.visible = true := by
  obtain rfl := eq_of_mem_ownMatches h
  obtain ⟨hmem, hkeep⟩ := List.mem_filter.mp h
  have hkind : t.kind.isRootLike = false := by
    by_contra hkind
    rw [Bool.not_eq_false] at hkind
    rw [hkind] at hmem
    cases hmem
  rw [hdefault] at hkeep
  have heligible := (Bool.and_eq_true_iff.mp hkeep).2
  exact ⟨rfl, (hd.tree.isEffectivelyVisible_parent? hs hkind).symm.trans heligible⟩

private theorem seenFrom_of_mem_matchesBelow (hd : d.Labelled) (hs : d.Has s)
    (hdefault : segment.visibility = .default) (h : t ∈ matchesBelow segment matcher s bulk host) :
    s.SeenFrom t := by
  have hholds := holds_of_mem_matchesBelow hd.tree hs h
  rw [matchesBelow] at h
  split at h
  · have hkeep := (List.mem_filter.mp h).2
    rw [hdefault] at hkeep
    exact hd.tree.seenFrom_of_isEffectivelyVisible hs hholds.reaches
      (Bool.and_eq_true_iff.mp hkeep).2
  · split at h
    · have hlookup := (List.mem_filter.mp h).1
      exact hd.tree.seenFrom_of_isEffectivelyVisible hs hholds.reaches
        (List.mem_filter.mp hlookup).2
    · have hwalk := (List.mem_filter.mp h).1
      rw [hdefault] at hwalk
      have hvisible : t ∈ s.descendants .everything (!·.visible) := by
        rw [← hd.tree.descendants_exposure hs host.skipsInstanceChildren]
        exact hwalk
      refine ⟨hholds.reaches, fun u hsu hut _ ↦ ?_⟩
      exact ((hd.tree.mem_descendants_visible_iff hs).mp hvisible).2 u hsu hut

/-- **One scope**: what is found at or below it is seen from it, and visible if it is the scope
itself. -/
theorem seen_of_mem_finder (hd : d.Labelled) (hs : d.Has s)
    (hdefault : segment.visibility = .default) (h : t ∈ finder bulk host segment allowSelf s) :
    s.SeenFrom t ∧ (t = s → t.visible = true) := by
  rcases List.mem_append.mp h with hown | hbelow
  · split at hown
    · obtain ⟨rfl, hvisible⟩ := visible_of_mem_ownMatches hd hs hdefault hown
      exact ⟨.refl hd.tree hs, fun _ ↦ hvisible⟩
    · cases hown
  · refine ⟨seenFrom_of_mem_matchesBelow hd hs hdefault hbelow, ?_⟩
    rintro rfl
    exact absurd (holds_of_mem_matchesBelow hd.tree hs hbelow) (hd.tree.not_holds_self hs)

/-! ## Whole searches -/

/-- The node is at a start or below it, and seen from there. -/
def SeenFromSome (starts : List Spot) (t : Spot) : Prop := ∃ s ∈ starts, s.SeenFrom t

/-- The node is at a start or below it and seen from there; a start that is found is visible. -/
def ShownFromSome (starts : List Spot) (t : Spot) : Prop :=
  ∃ s ∈ starts, s.SeenFrom t ∧ (t = s → t.visible = true)

private theorem leads_of_default {starts : List Spot} (hd : d.Labelled)
    (hstarts : ∀ s ∈ starts, d.Has s)
    (hdefault : segment.visibility = .default) :
    (finder bulk host).Leads (SeenFromSome starts) (ShownFromSome starts) segment := by
  rintro allowSelf t ⟨s, hs, hseen⟩ u hu
  have hhas : d.Has t := (hstarts s hs).trans hseen.1
  obtain ⟨hseen', hvisible⟩ := seen_of_mem_finder hd hhas hdefault hu
  refine ⟨s, hs, hseen.trans hd.tree (hstarts s hs) hseen', ?_⟩
  rintro rfl
  -- a way that comes back to its start has not left it
  exact hvisible (hd.tree.antisymm hhas hseen'.1 hseen.1).symm

end

section

variable {host : Host} {query : String} {plan : QueryPlan} {f : Found}

theorem Host.Labelled.has_of_mayStart {childSearch : Bool} {starts : List Spot} {s : Spot}
    (hh : host.Labelled)
    (hstart : Finder.MayStart host.document.pages (host.scopes childSearch) starts)
    (hs : s ∈ starts) : host.document.Has s := by
  rcases hstart with rfl | ⟨page, hpage, rfl⟩
  · exact hh.has_of_mem_scopes hs
  · rw [List.mem_singleton.mp hs]
    exact (Document.holds_of_mem_pages hpage).reaches

theorem Host.Labelled.shownFromSome_of_answer {bulk : Bool} (hh : host.Labelled)
    (hdefault : ∀ segment ∈ plan.segments, segment.visibility = .default) :
    Yields (host.answer bulk plan) fun r ↦ ∀ f ∈ r.1, r.2 = some f.spot ∨
      ShownFromSome (Finder.startsOf (host.scopes plan.childSearch) r.2) f.spot := by
  have hleads : ∀ starts,
      Finder.MayStart host.document.pages (host.scopes plan.childSearch) starts →
      ∀ segment ∈ plan.segments, (finder bulk host).Leads (SeenFromSome starts)
        (ShownFromSome starts) segment := by
    intro starts hstart segment hsegment
    exact leads_of_default hh.document (fun s hs ↦ hh.has_of_mayStart hstart hs)
      (hdefault segment hsegment)
  refine Finder.Leads.answer hleads ?_ ?_
  · rintro starts t ⟨s, hs, hseen, -⟩
    exact ⟨s, hs, hseen⟩
  · intro starts hstart s hs
    exact ⟨s, hs, .refl hh.document.tree (hh.has_of_mayStart hstart hs)⟩

/-- **No hidden layer is found.** A search without `--h` and `--a` on a document that was imported,
with any selection, and with any picks in its query, gives layers that are seen from one of its
starts: from the page that the query names, or from a starting scope. A start that is given is
itself visible. The page that the query names is given whether it is visible or not. -/
theorem Engine.shownFromSome_of_search {v : Json}
    (hdocument : Document.ofExport v = .ok host.document)
    (hpage : host.document.Has host.currentPage)
    (hselection : ∀ s ∈ host.selection, host.document.Has s) (hplan : parseQuery query = .ok plan)
    (hvisible : plan.modifiers.includesHidden = false) (m : Monitor) {r : Response}
    (hr : (Engine.new.search host query m).1 = .ok r) (hf : f ∈ r.results) :
    r.page = some f.spot ∨
      ∃ s ∈ Finder.startsOf (host.scopes plan.childSearch) r.page,
        s.SeenFrom f.spot ∧ (f.spot = s → f.spot.visible = true) := by
  have hh : host.Labelled := ⟨Document.labelled_of_ofExport hdocument, hpage, hselection⟩
  have hdefault := QueryPlan.visibility_eq_default hplan hvisible
  -- a search that comes to its end comes to the answer of the undisturbed one
  have hcalm := (Engine.allOrNothing_search (m := m)).ok r hr
  have htold : (Engine.new.search host query m.calmed).1.map Response.told =
      (host.exposed plan.modifiers.includesHidden).answer true plan :=
    told_search hh m.calm_calmed rfl hplan fun r hr ↦ by
      rw [recalled_new] at hr
      cases hr
  rw [hcalm, hvisible] at htold
  exact hh.shownFromSome_of_answer hdefault _ htold.symm f hf

/-- For instance the title of a card. -/
theorem Engine.shownFromSome_of_search_cards :
    ∃ r, (Engine.new.search .ofCards "Title" {}).1 = .ok r ∧
      r.nodes = [Document.cardTitle] ∧ ∀ f ∈ r.results,
        r.page = some f.spot ∨ ∃ s ∈ Finder.startsOf (Host.ofCards.scopes false) r.page,
          s.SeenFrom f.spot ∧ (f.spot = s → f.spot.visible = true) := by
  obtain ⟨r, hr, hnodes⟩ : ∃ r, (Engine.new.search .ofCards "Title" {}).1 = .ok r ∧
      r.nodes = [Document.cardTitle] := ⟨_, rfl, rfl⟩
  obtain ⟨plan, hplan, hvisible, hchild⟩ : ∃ plan, parseQuery "Title" = .ok plan ∧
      plan.modifiers.includesHidden = false ∧ plan.childSearch = false := ⟨_, rfl, rfl, rfl⟩
  refine ⟨r, hr, hnodes, fun f hf ↦ ?_⟩
  rw [← hchild]
  exact shownFromSome_of_search Document.ofExport_cards Host.orderly_ofCards.currentPage nofun
    hplan hvisible {} hr hf

end

/-! ## A hidden page -/

/-- A frame. -/
def Node.draft : Node := ⟨{ id := "1:2", kind := .frame, name := "Card" }, []⟩

/-- A hidden page with that frame. -/
def Node.drafts : Node :=
  ⟨{ id := "1:1", kind := .page, name := "Drafts", visible := false }, [.draft]⟩

/-- The export of a document with nothing but that page. -/
def Json.drafts : Json :=
  .object [("id", .string "0:0"), ("name", .string "Doc"), ("pages", .array [
    .object [("id", .string "1:1"), ("type", .string "PAGE"), ("name", .string "Drafts"),
      ("visible", .bool false), ("children", .array [
        .object [("id", .string "1:2"), ("type", .string "FRAME"), ("name", .string "Card")]])]])]

/-- The document. -/
def Document.drafts : Document :=
  .ofRoot ⟨{ id := "0:0", kind := .document, name := "Doc" }, [.drafts]⟩

/-- Its page. -/
def Document.draftPage : Spot := drafts.root.child 0 .drafts

/-- The frame on it. -/
def Document.draft : Spot := draftPage.child 0 .draft

/-- The host that shows the page, with the whole document selected. -/
def Host.ofDrafts : Host :=
  { document := .drafts, currentPage := Document.draftPage, selection := [Document.drafts.root] }

/-- **A search may find what is on a hidden page**: with the whole document selected, the way up
from a frame to the only scope goes through a hidden page, and the frame is found. -/
theorem search_sees_hidden_page :
    Document.ofExport .drafts = .ok Host.ofDrafts.document ∧
    ∃ plan, parseQuery "@Card" = .ok plan ∧ plan.modifiers.includesHidden = false ∧
    ∃ r, (Engine.new.search .ofDrafts "@Card" {}).1 = .ok r ∧
    ∃ f ∈ r.results, ¬(r.page = some f.spot ∨
      ∃ s ∈ Finder.startsOf (Host.ofDrafts.scopes plan.childSearch) r.page,
        s.Reaches f.spot ∧ ∀ u : Spot, s.Holds u → u.Reaches f.spot → u.visible = true) := by
  refine ⟨(Document.ofExport_eq_checked rfl).trans rfl, _, rfl, rfl, _, rfl, _, List.mem_cons_self,
    ?_⟩
  rintro (hpage | ⟨s, hs, -, hvisible⟩)
  · cases hpage
  · obtain rfl : s = Document.drafts.root := List.mem_singleton.mp hs
    have hpage : Document.drafts.root.Holds Document.draftPage :=
      .single (List.mem_singleton.mpr rfl)
    have hframe : Document.draftPage.Reaches Document.draft :=
      (Spot.Reaches.refl _).child (List.mem_singleton.mpr rfl)
    have hhidden : Document.draftPage.visible = true := hvisible _ hpage hframe
    cases hhidden

end SceneSearch
