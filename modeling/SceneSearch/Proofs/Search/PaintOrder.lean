import SceneSearch.Proofs.Query.EachScope
import SceneSearch.Proofs.Scene.Reordering
import SceneSearch.Proofs.Search.Modes
import SceneSearch.Proofs.Search.Ranking
import SceneSearch.Proofs.Search.Rows
import SceneSearch.Search.Session

/-!
# Ranks do not depend on paint order

The children of a node are listed in paint order, and whatever goes down a document goes along these
lists. So bringing a node to the front changes the order in which nodes are found, that in which
their heights are added up, and what decides between nodes that overlap. It does not change which
nodes are found: from each scope the same ones are, in another order (`finder_perm`), and the same
nodes become the scopes of the next segment. The starting scopes depend on ways up only, and pages
are listed by the root, whose order is left as it is.

What a rank picks then depends on the reading order alone, and that is the same where rows and left
edges tell the nodes apart that it picks from: `Engine.nodes_search_rank_editHost`. These are the
nodes that are found, without the pages. Pages may well have a position, and are found where the
root is searched; but rows that are cut for them as well say nothing about the choice.
-/

namespace SceneSearch

open Evaluation

variable {d : Document} {scene : Scene} {s t : Spot} {spots others scopes scopes' : List Spot}
  {host host' : Host} {segment : SegmentPlan} {matcher : NameMatcher} {bulk allowSelf : Bool}

/-! ## Nodes of another state -/

namespace Spot

theorem filter_perm_into {keep keep' : Spot → Bool} (hperm : others.Perm (spots.map (into scene)))
    (hkeep : ∀ s ∈ spots, keep' (s.into scene) = keep s) :
    (others.filter keep').Perm ((spots.filter keep).map (into scene)) := by
  have hfiltered := hperm.filter keep'
  rw [List.filter_map] at hfiltered
  rwa [← List.filter_congr hkeep]

private theorem distinctSpots_into (scene : Scene) (spots : List Spot) :
    distinctSpots (spots.map (into scene)) = (distinctSpots spots).map (into scene) :=
  (@map_firstOccurrences _ _ _ place _ (into scene) [] spots).symm

end Spot

namespace Document.ReorderedTo

open Spot

/-! ## Starting scopes -/

private theorem pruneNested_into (h : d.ReorderedTo scene) (hd : d.Labelled)
    (hspots : ∀ s ∈ spots, d.Has s) :
    pruneNested (spots.map (into scene)) = (pruneNested spots).map (into scene) := by
  rw [pruneNested, pruneNested, List.filter_map]
  refine congrArg _ (List.filter_congr fun s hs ↦ ?_)
  have hnested : ∀ t : Spot, (!(t.into scene).same (s.into scene) &&
      (s.into scene).isBelow (t.into scene)) = (!t.same s && s.isBelow t) := fun t ↦ by
    rw [h.isBelow_into hd (hspots s hs), same_into]
  rw [Function.comp_apply, List.any_map]
  simp only [Function.comp_def, hnested]

private theorem initialScopes_into (h : d.ReorderedTo scene) (hd : d.Labelled)
    (hspots : ∀ s ∈ spots, d.Has s) (page : Spot) (childSearch : Bool) :
    initialScopes (page.into scene) (spots.map (into scene)) childSearch =
      (initialScopes page spots childSearch).map (into scene) := by
  have hwanted : (spots.map (into scene)).flatMap
      (fun s ↦ s :: (if childSearch then [] else s.anchor?.toList)) =
        (spots.flatMap fun s ↦ s :: (if childSearch then [] else s.anchor?.toList)).map
          (into scene) := by
    rw [List.flatMap_map, List.map_flatMap]
    refine List.flatMap_congr fun s hs ↦ ?_
    rw [h.anchor?_into hd (hspots s hs)]
    cases childSearch <;> cases s.anchor? <;> rfl
  have hhas : ∀ t ∈ distinctSpots
      (spots.flatMap fun s ↦ s :: (if childSearch then [] else s.anchor?.toList)), d.Has t := by
    intro t ht
    obtain ⟨s, hs, ht⟩ := List.mem_flatMap.mp (mem_of_firstOccurrences ht)
    rcases List.mem_cons.mp ht with rfl | ht
    · exact hspots t hs
    · split at ht
      · cases ht
      · exact Document.has_of_mem_chain hd (hspots s hs)
          (Document.anchor?_mem_chain (by simpa using ht))
  rw [initialScopes, initialScopes, hwanted]
  dsimp only
  generalize spots.flatMap (fun s ↦ s :: (if childSearch then [] else s.anchor?.toList)) = wanted
    at hhas
  rw [distinctSpots_into, h.pruneNested_into hd hhas, List.isEmpty_map, List.isEmpty_map]
  split
  · rfl
  · split <;> rfl

/-! ## Matches of one scope -/

private theorem ownMatches_into (h : d.ReorderedTo scene) (hd : d.Labelled) (hs : d.Has s) :
    ownMatches segment matcher (s.into scene) =
      (ownMatches segment matcher s).map (into scene) := by
  have heligible : (s.into scene).isEligible segment.visibility (s.into scene).parent? =
      s.isEligible segment.visibility s.parent? := by
    rw [h.parent?_into (hd.scene_eq hs), h.isEligible_into hd hs]
  rw [ownMatches, ownMatches, kind_into]
  split
  · rfl
  · have hfits : fits segment matcher (s.into scene) = fits segment matcher s := rfl
    rw [List.filter_singleton, List.filter_singleton, hfits, heligible]
    cases fits segment matcher s && s.isEligible segment.visibility s.parent? <;> rfl

variable (h : d.ReorderedTo scene) (hd : d.Labelled) (hs : d.Has s)
  (hshown : host'.shown = host.shown)
include h hd hs hshown

private theorem childMatches_perm :
    (childMatches segment matcher (s.into scene) host').Perm
      ((childMatches segment matcher s host).map (into scene)) := by
  rw [childMatches, childMatches, hshown]
  refine filter_perm_into (h.shownChildren_perm hd hs host.shown) fun c hc ↦ ?_
  have hchild : d.Has c := Reaches.child hs (mem_children_of_mem_shownChildren hc)
  exact congrArg (fits segment matcher c && ·) (h.isEligible_into hd hchild _ (some s))

private theorem lookup_perm (kinds : List NodeKind) :
    (host'.lookup (s.into scene) kinds).Perm ((host.lookup s kinds).map (into scene)) := by
  rw [Host.lookup, Host.lookup, hshown]
  refine filter_perm_into (filter_perm_into (h.descendants_perm hd hs _ fun _ ↦ rfl) fun _ _ ↦ rfl)
    fun t ht ↦ ?_
  have hholds := hd.tree.holds_of_mem_descendants hs (List.mem_filter.mp ht).1
  exact h.isEligible_into hd (hs.holds hholds) .default (some s)

private theorem walkMatches_perm :
    (walkMatches segment matcher (s.into scene) host').Perm
      ((walkMatches segment matcher s host).map (into scene)) := by
  rw [walkMatches, walkMatches, hshown]
  exact filter_perm_into (h.descendants_perm hd hs _ fun _ ↦ rfl) fun _ _ ↦ rfl

private theorem matchesBelow_perm :
    (matchesBelow segment matcher (s.into scene) bulk host').Perm
      ((matchesBelow segment matcher s bulk host).map (into scene)) := by
  rw [matchesBelow, matchesBelow]
  split
  · exact h.childMatches_perm hd hs hshown
  · cases bulkKinds? bulk segment with
    | none => exact h.walkMatches_perm hd hs hshown
    | some kinds => exact filter_perm_into (h.lookup_perm hd hs hshown kinds) fun _ _ ↦ rfl

/-- **From each scope the same nodes are found**, perhaps in another order. -/
theorem finder_perm (segment : SegmentPlan) (allowSelf : Bool) :
    (finder bulk host' segment allowSelf (s.into scene)).Perm
      ((finder bulk host segment allowSelf s).map (into scene)) := by
  rw [finder, finder, List.map_append]
  refine List.Perm.append ?_ (h.matchesBelow_perm hd hs hshown)
  split
  · rw [h.ownMatches_into hd hs]
  · exact .nil

omit hs hshown

/-! ## Matches of all scopes -/

private theorem distinctSpots_perm (hspots : ∀ s ∈ spots, d.Has s)
    (hperm : others.Perm (spots.map (into scene))) :
    (distinctSpots others).Perm ((distinctSpots spots).map (into scene)) := by
  have hothers : ∀ t ∈ others, ({ d with scene } : Document).Has t := by
    intro t ht
    obtain ⟨s, hs, rfl⟩ := List.mem_map.mp (hperm.subset ht)
    exact h.has_into hd (hspots s hs)
  have hnodup : ((distinctSpots spots).map (into scene)).Nodup :=
    hd.nodup_map_into (fun s hs ↦ hspots s (mem_of_firstOccurrences hs)) (nodup_distinctSpots spots)
  refine (List.perm_ext_iff_of_nodup (nodup_distinctSpots others) hnodup).mpr fun t ↦ ?_
  rw [mem_distinctSpots_iff (h.labelled hd).tree hothers, hperm.mem_iff, List.mem_map, List.mem_map]
  exact exists_congr fun s ↦ and_congr_left fun _ ↦ (mem_distinctSpots_iff hd.tree hspots).symm

include hshown

private theorem flatMap_finder_perm (hscopes : ∀ s ∈ scopes, d.Has s)
    (hperm : scopes'.Perm (scopes.map (into scene))) (segment : SegmentPlan) (allowSelf : Bool) :
    (scopes'.flatMap (finder bulk host' segment allowSelf)).Perm
      ((scopes.flatMap (finder bulk host segment allowSelf)).map (into scene)) := by
  refine (hperm.flatMap_right _).trans ?_
  rw [List.flatMap_map, List.map_flatMap]
  exact List.Perm.flatMap_left _ fun s hs ↦ h.finder_perm hd (hscopes s hs) hshown _ _

/-- **Segments lead to the same nodes**, one after the other. -/
theorem nodes_perm (hscopes : ∀ s ∈ scopes, d.Has s)
    (hperm : scopes'.Perm (scopes.map (into scene))) (segments : List SegmentPlan)
    (allowSelf : Bool) :
    ((finder bulk host').nodes allowSelf scopes' segments).Perm
      (((finder bulk host).nodes allowSelf scopes segments).map (into scene)) := by
  induction segments generalizing scopes scopes' allowSelf with
  | nil => exact hperm
  | cons segment rest ih =>
    have hfound : ∀ s ∈ scopes.flatMap (finder bulk host segment allowSelf), d.Has s := fun s hs ↦
      reaches_of_mem_flatMap hd.tree hscopes hs
    rw [Finder.nodes, Finder.nodes]
    refine ih (fun s hs ↦ hfound s (mem_of_firstOccurrences hs)) ?_ false
    exact h.distinctSpots_perm hd hfound (h.flatMap_finder_perm hd hshown hscopes hperm _ _)

end Document.ReorderedTo

theorem QueryPlan.pageAmong?_into (scene : Scene) (plan : QueryPlan) (pages : List Spot) :
    plan.pageAmong? (pages.map (Spot.into scene)) =
      (plan.pageAmong? pages).map (Spot.into scene) := by
  rw [pageAmong?, pageAmong?]
  cases plan.segments.head? with
  | none => rfl
  | some directive => exact List.find?_map

/-! ## Hosts -/

theorem Document.Labelled.has_of_mem_nodes (hd : d.Labelled) (hscopes : ∀ s ∈ scopes, d.Has s)
    (segments : List SegmentPlan) (allowSelf : Bool) :
    ∀ t ∈ (finder bulk host).nodes allowSelf scopes segments, d.Has t := by
  induction segments generalizing scopes allowSelf with
  | nil => exact hscopes
  | cons segment rest ih =>
    rw [Finder.nodes]
    exact ih (fun s hs ↦ reaches_of_mem_flatMap hd.tree hscopes (mem_of_firstOccurrences hs)) false

namespace Host

theorem Labelled.editHost (hh : host.Labelled) (h : host.document.ReorderedTo scene) :
    (Session.editHost scene host).Labelled where
  document := h.labelled hh.document
  currentPage := by
    rw [Session.editHost, h.within_eq hh.document hh.currentPage]
    exact h.has_into hh.document hh.currentPage
  selection := by
    rw [Session.editHost, h.map_within_eq hh.document hh.selection]
    intro t ht
    obtain ⟨s, hs, rfl⟩ := List.mem_map.mp ht
    exact h.has_into hh.document (hh.selection s hs)

theorem Labelled.pages_editHost (hh : host.Labelled) (h : host.document.ReorderedTo scene) :
    (Session.editHost scene host).document.pages = host.document.pages.map (Spot.into scene) := by
  have hroot : (Session.editHost scene host).document.root = host.document.root.into scene :=
    h.root_eq
  rw [Document.pages, Document.pages, hroot, h.children_root hh.document, List.filter_map]
  rfl

theorem Labelled.scopes_editHost (hh : host.Labelled) (h : host.document.ReorderedTo scene)
    (childSearch : Bool) :
    (Session.editHost scene host).scopes childSearch =
      (host.scopes childSearch).map (Spot.into scene) := by
  rw [scopes, scopes, Session.editHost, h.within_eq hh.document hh.currentPage,
    h.map_within_eq hh.document hh.selection]
  exact h.initialScopes_into hh.document hh.selection host.currentPage childSearch

theorem Labelled.has_of_mem_planNodes (hh : host.Labelled) (plan : QueryPlan) :
    ∀ t ∈ (host.planNodes plan).1, host.document.Has t := by
  rw [planNodes, Finder.planNodes_eq]
  cases hstart : plan.start? host.document.pages (host.scopes plan.childSearch) with
  | none => exact fun t ht ↦ absurd ht List.not_mem_nil
  | some start => exact hh.document.has_of_mem_nodes (hh.has_of_start? hstart).1 _ _

private theorem exposed_editHost (scene : Scene) (host : Host) (everything : Bool) :
    (Session.editHost scene host).exposed everything =
      Session.editHost scene (host.exposed everything) := by
  cases everything <;> rfl

/-- **The same nodes are found**, perhaps in another order. -/
theorem Labelled.planNodes_editHost_perm (hh : host.Labelled)
    (h : host.document.ReorderedTo scene) (plan : QueryPlan) :
    ((Session.editHost scene host).planNodes plan).1.Perm
      ((host.planNodes plan).1.map (Spot.into scene)) := by
  have hshown : (Session.editHost scene host).shown = host.shown := rfl
  rw [planNodes, planNodes, Finder.planNodes, Finder.planNodes, hh.pages_editHost h,
    hh.scopes_editHost h, QueryPlan.pageAmong?_into]
  split
  · cases hpage : plan.pageAmong? host.document.pages with
    | none => exact .nil
    | some page =>
      have hhas : host.document.Has page :=
        (Document.holds_of_mem_pages (QueryPlan.mem_of_pageAmong? hpage)).reaches
      exact h.nodes_perm hh.document hshown (List.forall_mem_singleton.mpr hhas) (.refl _) _ _
  · exact h.nodes_perm hh.document hshown (fun s hs ↦ hh.has_of_mem_scopes hs) (.refl _) _ _

end Host

/-! ## Searches -/

section

variable {e : Engine} {query : String} {plan : QueryPlan} {m m' : Monitor} {r : Response} {k : Nat}

theorem Response.map_spot_selectable (r : Response) :
    r.selectable.map Found.spot = r.nodes.filter (·.kind ≠ .page) := by
  rw [nodes, List.filter_map]
  rfl

/-- Where rows and left edges decide between the nodes that may be picked, these have the reading
order that they had. -/
theorem Response.sortVisually_selectable {r' : Response} (hunrepeated : Unrepeated r.results)
    (hdecisive : Rows.Decisive (r.selectable.map Found.spot))
    (hperm : r'.nodes.Perm (r.nodes.map (Spot.into scene))) :
    sortVisually (r'.selectable.map Found.spot) =
      (sortVisually (r.selectable.map Found.spot)).map (List.map (Spot.into scene)) := by
  have hnodup : (r.nodes.map Spot.place).Nodup := by
    rw [nodes, List.map_map]
    exact hunrepeated
  rw [map_spot_selectable] at hdecisive ⊢
  rw [map_spot_selectable]
  refine hdecisive.sortVisually_eq_map ?_ (fun _ ↦ rfl) (fun _ ↦ rfl)
    (Spot.filter_perm_into hperm fun _ _ ↦ rfl)
  exact hnodup.sublist (List.filter_sublist.map Spot.place)

namespace Engine

theorem search_clearCaches (hsettings : e.settings = {}) (hm : m.Calm) (host : Host)
    (query : String) :
    (e.clearCaches.search host query m).1 = (Engine.new.search host query m).1 := by
  have hcleared : ∀ plan, e.clearCaches.recalled host query plan = none := fun plan ↦ by
    rw [recalled]
    split <;> rfl
  have hsame : e.clearCaches.settings = Engine.new.settings := hsettings
  cases hplan : parseQuery query with
  | error cause => simp only [search, hplan]
  | ok plan =>
    rw [outcome_search hm hplan, outcome_search hm hplan, hcleared, recalled_new]
    simp only [evaluate, hsame]

/-- A query with a number behind it that has too many digits is refused on every host. -/
theorem search_append_rank_of_lt (hclosed : Even (query.toList.count '"'))
    (hdigits : digitLimit < (toString k).length) :
    ∃ fault, ∀ host m, (Engine.new.search host (query ++ (" --" ++ toString k)) m).1 =
      .error fault := by
  cases hplan : parseQuery (query ++ (" --" ++ toString k)) with
  | error cause => exact ⟨.indexTooLong cause, fun host m ↦ by rw [search, hplan]⟩
  | ok plan =>
    have hle := QueryPlan.length_le_of_parseQuery_number (Modifier.toList_index k) hclosed hplan
    omega

/-- **A query for all matches finds the same nodes** after the document was reordered. -/
theorem exists_search_editHost (hh : host.Labelled) (h : host.document.ReorderedTo scene)
    (hm : m.Calm) (hm' : m'.Calm) (hplan : parseQuery query = .ok plan)
    (hall : QueryPlan.KeepsAll query) (hsearch : (Engine.new.search host query m).1 = .ok r) :
    (∀ s ∈ r.nodes, host.document.Has s) ∧
      ∃ r', (Engine.new.search (Session.editHost scene host) query m').1 = .ok r' ∧
        r'.nodes.Perm (r.nodes.map (Spot.into scene)) := by
  cases hempty : plan.isEmpty with
  | true =>
    rw [outcome_search hm hplan, if_pos hempty] at hsearch
    obtain rfl := Except.ok.inj hsearch
    exact ⟨nofun, {}, by rw [outcome_search hm' hplan, if_pos hempty], .nil⟩
  | false =>
    obtain ⟨r₀, hr₀, hnodes⟩ := exists_nodes_search_new hh hplan hall hempty hm
    obtain ⟨r', hr', hnodes'⟩ := exists_nodes_search_new (hh.editHost h) hplan hall hempty hm'
    obtain rfl := Except.ok.inj (hsearch.symm.trans hr₀)
    have hdocument := (host.exposed_fields plan.modifiers.includesHidden).1
    have hexposed := hh.exposed plan.modifiers.includesHidden
    refine ⟨fun s hs ↦ ?_, r', hr', ?_⟩
    · rw [hnodes] at hs
      exact hdocument ▸ hexposed.has_of_mem_planNodes plan s hs
    · rw [hnodes', hnodes, Host.exposed_editHost]
      exact hexposed.planNodes_editHost_perm (hdocument.symm ▸ h) plan

/-- **What is picked does not depend on paint order** where rows and left edges decide. -/
theorem nodes_search_rank_editHost (hh : host.Labelled) (h : host.document.ReorderedTo scene)
    (hm : m.Calm) (hm' : m'.Calm) (hplan : parseQuery query = .ok plan)
    (hall : QueryPlan.KeepsAll query) (hclosed : Even (query.toList.count '"'))
    (hsearch : (Engine.new.search host query m).1 = .ok r)
    (hdecisive : Rows.Decisive (r.selectable.map Found.spot)) (k : Nat) :
    (Engine.new.search (Session.editHost scene host) (query ++ (" --" ++ toString k)) m').1.map
        Response.nodes =
      ((Engine.new.search host (query ++ (" --" ++ toString k)) m).1.map Response.nodes).map
        (List.map (Spot.within scene)) := by
  by_cases hdigits : (toString k).length ≤ digitLimit
  · have hfirst := (QueryPlan.picks_nothing hplan hall).1
    have hindex := QueryPlan.index_eq_none hplan hall
    obtain ⟨hhas, r', hsearch', hperm⟩ := exists_search_editHost hh h hm hm' hplan hall hsearch
    rw [nodes_search_append_rank hm' hplan hclosed hfirst hindex hsearch' hdigits,
      nodes_search_append_rank hm hplan hclosed hfirst hindex hsearch hdigits,
      Response.sortVisually_selectable (unrepeated_search hm hplan hsearch) hdecisive hperm]
    cases hsort : sortVisually (r.selectable.map Found.spot) with
    | error fault => rfl
    | ok sorted =>
      have hsorted : ∀ s ∈ sorted, host.document.Has s := by
        intro s hs
        have hmem := (sortVisually_perm hsort).subset hs
        rw [Response.map_spot_selectable] at hmem
        exact hhas s (List.mem_filter.mp hmem).1
      change Except.ok (atRank k (sorted.map (Spot.into scene))).toList =
        Except.ok ((atRank k sorted).toList.map (Spot.within scene))
      rw [← h.map_within_eq hh.document hsorted, atRank_map, Option.toList_map]
  · obtain ⟨fault, hfault⟩ := search_append_rank_of_lt hclosed (Nat.lt_of_not_le hdigits)
    rw [hfault, hfault]
    rfl

end Engine

namespace Session

theorem search_clearCaches {s : Session} (hsettings : s.engine.settings = {}) (hm : m.Calm)
    (query : String) :
    (s.clearCaches.search query m).1 = (Engine.new.search s.host query m).1 := by
  have hengine : s.clearCaches.engine = s.engine.clearCaches := rfl
  have hhost : s.clearCaches.host = s.host := rfl
  rw [search_eq, hengine, hhost, Engine.search_clearCaches hsettings hm]

/-- **Ranks do not depend on paint order.** Let a query ask for all matches and leave no quote open.
If the nodes that it finds, pages apart, have finite positions and whole heights with a small sum,
and no two of them share both their row and their left edge, then with a rank behind it the query
finds the same node when the children of pages, and of any nodes below them, are listed in whatever
other order and the caches are cleared. -/
theorem search_rank_of_reorderedTo {s : Session} (hsettings : s.engine.settings = {})
    (hh : s.host.Labelled) (hm : m.Calm) (hm' : m'.Calm) (hplan : parseQuery query = .ok plan)
    (hall : QueryPlan.KeepsAll query) (hclosed : Even (query.toList.count '"')) :
    ∃ r, (s.clearCaches.search query m).1 = .ok r ∧
      (Rows.Decisive (r.selectable.map Found.spot) →
        ∀ scene, s.host.document.ReorderedTo scene → ∀ n : Nat,
          ((s.edit scene).clearCaches.search (query ++ " --" ++ toString n) m').1.map
              Response.nodes =
            ((s.clearCaches.search (query ++ " --" ++ toString n) m).1.map Response.nodes).map
              (List.map (Spot.within scene))) := by
  have hsettings' : ∀ scene, (s.edit scene).engine.settings = {} := fun _ ↦ hsettings
  have hedited : ∀ scene, (s.edit scene).host = editHost scene s.host := fun _ ↦ rfl
  obtain ⟨r, hsearch⟩ : ∃ r, (Engine.new.search s.host query m).1 = .ok r := by
    cases hempty : plan.isEmpty with
    | true => exact ⟨{}, by rw [Engine.outcome_search hm hplan, if_pos hempty]⟩
    | false =>
      obtain ⟨r, hr, -⟩ := Engine.exists_nodes_search_new hh hplan hall hempty hm
      exact ⟨r, hr⟩
  refine ⟨r, (search_clearCaches hsettings hm query).trans hsearch, fun hdecisive scene h n ↦ ?_⟩
  rw [search_clearCaches hsettings hm, search_clearCaches (hsettings' scene) hm', hedited,
    String.append_assoc]
  exact Engine.nodes_search_rank_editHost hh h hm hm' hplan hall hclosed hsearch hdecisive n

end Session

end

/-! ## Two sheets -/

/-- A sheet at a height. -/
def Node.sheet (id : String) (y : Float) : Node :=
  ⟨{ id, kind := .frame, name := "Card", x := some 0, y := some y, height := some 100 }, []⟩

/-- A page with two sheets, the second one lower by some length. -/
def Node.sheetPage (y : Float) : Node :=
  ⟨{ id := "1:1", kind := .page, name := "Cards", x := some 500, y := some 0 },
    [.sheet "1:2" 0, .sheet "1:3" y]⟩

/-- A document with that page only. -/
def Document.sheets (y : Float) : Document :=
  .ofRoot ⟨{ id := "0:0", kind := .document, name := "Doc" }, [.sheetPage y]⟩

/-- Its page. -/
def Document.sheetPage (y : Float) : Spot := (sheets y).root.child 0 (.sheetPage y)

/-- The document with its sheets in the other order. -/
def Scene.turnedSheets (y : Float) : Scene :=
  (Document.sheets y).scene.reverse (Document.sheetPage y)

/-- A session that searches the whole document, its page included. -/
def Session.ofSheets (y : Float) : Session where
  host := {
    document := .sheets y, currentPage := Document.sheetPage y,
    selection := [(Document.sheets y).root] }
  engine := .new

theorem Session.labelled_ofSheets (y : Float) : (ofSheets y).host.Labelled where
  document := by
    refine Document.labelled_of_links_eq rfl ?_
    show ["0:0", "1:1", "1:2", "1:3"].Nodup
    decide
  currentPage := (Document.has_root _).holds (.single (List.mem_singleton.mpr rfl))
  selection := List.forall_mem_singleton.mpr (Document.has_root _)

theorem Session.reorderedTo_turnedSheets (y : Float) :
    (ofSheets y).host.document.ReorderedTo (.turnedSheets y) :=
  (labelled_ofSheets y).document.reorderedTo_relist (labelled_ofSheets y).currentPage
    (fun h ↦ nomatch congrArg Spot.kind h) (List.reverse_perm _)

theorem QueryPlan.modifierFree_card : ModifierFree "card" :=
  ⟨[⟨.start, "card".toList, []⟩], by rfl, by simp⟩

namespace Session

/-- For instance of two sheets one below the other the upper one is found. -/
theorem search_rank_of_reorderedTo_sheets :
    (((ofSheets 300).edit (.turnedSheets 300)).clearCaches.search "card --1" {}).1.map
        Response.nodes =
      (((ofSheets 300).clearCaches.search "card --1" {}).1.map Response.nodes).map
        (List.map (Spot.within (.turnedSheets 300))) ∧
      ((ofSheets 300).clearCaches.search "card --1" {}).1.toOption.map
        (fun r ↦ r.nodes.map Spot.id) = some ["1:2"] := by
  obtain ⟨plan, hplan⟩ := exists_of_isOk (show (parseQuery "card").isOk = true by decide +kernel)
  obtain ⟨r, hr, hrank⟩ := search_rank_of_reorderedTo rfl (labelled_ofSheets 300)
    Monitor.calm_default Monitor.calm_default hplan QueryPlan.modifierFree_card.keepsAll (by decide)
  obtain ⟨r', hr', hdecisive⟩ := exists_of_any
    (show (((ofSheets 300).clearCaches.search "card" {}).1.toOption.any fun r ↦
      Rows.isDecisive (fun _ ↦ 100) (r.selectable.map Found.spot)) = true by decide +kernel)
  obtain rfl := Except.ok.inj (hr'.symm.trans hr)
  refine ⟨?_, by decide +kernel⟩
  exact hrank (Rows.decisive_of_isDecisive hdecisive) _ (reorderedTo_turnedSheets 300) 1

/-- **Rows that are cut for pages as well do not decide.** The page and the sheets on it are found,
and no two of them share both their row and their left edge. Yet with one behind it the query finds
the sheet in front, whichever it is: the page is left out of the choice, and without it both sheets
are in one row. -/
theorem search_rank_depends_on_paintOrder :
    ∃ r, ((ofSheets 30).clearCaches.search "card" {}).1 = .ok r ∧ Rows.Decisive r.nodes ∧
      (ofSheets 30).host.Labelled ∧ QueryPlan.KeepsAll "card" ∧
      Even ("card".toList.count '"') ∧
      (ofSheets 30).host.document.ReorderedTo (.turnedSheets 30) ∧
      (((ofSheets 30).edit (.turnedSheets 30)).clearCaches.search "card --1" {}).1.map
          Response.nodes ≠
        (((ofSheets 30).clearCaches.search "card --1" {}).1.map Response.nodes).map
          (List.map (Spot.within (.turnedSheets 30))) := by
  obtain ⟨r, hr, hdecisive⟩ := exists_of_any
    (show (((ofSheets 30).clearCaches.search "card" {}).1.toOption.any fun r ↦
      Rows.isDecisive (fun s ↦ if s.kind = .page then 0 else 100) r.nodes) = true by
        decide +kernel)
  refine ⟨r, hr, Rows.decisive_of_isDecisive hdecisive, labelled_ofSheets 30,
    QueryPlan.modifierFree_card.keepsAll, by decide, reorderedTo_turnedSheets 30, fun heq ↦ ?_⟩
  have hids := congrArg (fun nodes ↦ nodes.toOption.map (List.map Spot.id)) heq
  revert hids
  decide +kernel

end Session

end SceneSearch
