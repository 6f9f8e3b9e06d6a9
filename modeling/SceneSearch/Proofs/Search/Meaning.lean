import SceneSearch.Proofs.Search.Caching

/-!
# What a search means

A search is meant to find the nodes that its segments lead to, one after the other, from some scope
that it starts in. `LeadsTo` says so without any way to find them: a segment leads from a node to a
child or to anything strictly below, the first one also to the node itself, if the type and the name
are asked for and if hidden nodes are where the query lets them be. Nothing is said there of walks,
bulk lookups, flags of the host, or of the order in which nodes are found.

The proof goes from one scope to all: for one scope the three ways below it come to what `LeadsTo`
says, which is `mem_finder_iff`; then segments are put together by induction, where matches that
several scopes have in common are kept once.
-/

namespace SceneSearch

open Evaluation

/-! ## The meaning of a query -/

/-- How visible the nodes on a way have to be, and the last one of them: all visible without `--h`
and `--a`; the last one of a query hidden with `--h`; anything otherwise. -/
def QueryModifiers.Allows (m : QueryModifiers) (isFinal : Bool) (way : Spot → Prop) (t : Spot) :
    Prop :=
  if m.hiddenOnly then isFinal = true → t.visible = false
  else if m.allLayers then True
  else ∀ u, way u → u.visible = true

/-- A segment leads from `s` to `t`: to a child or to a node strictly below, or, where that is
allowed, from a node that is no page to itself. -/
def SegmentPlan.LeadsTo (segment : SegmentPlan) (m : QueryModifiers) (isFinal allowSelf : Bool)
    (s t : Spot) : Prop :=
  segment.symbol.admits t.layer = true ∧ nameMatches segment.nameQuery t.name = true ∧
    ((if segment.direct then t ∈ s.children else s.Holds t) ∧
        m.Allows isFinal (fun u ↦ s.Holds u ∧ u.Reaches t) t ∨
      (allowSelf = true ∧ s.kind ≠ .page ∧ t = s) ∧ m.Allows isFinal (fun u ↦ u = s) t)

/-- Segments lead from `s` to `t` through one node each. -/
inductive LeadTo (m : QueryModifiers) : Bool → List SegmentPlan → Spot → Spot → Prop
  | nil {allowSelf : Bool} {s : Spot} : LeadTo m allowSelf [] s s
  | cons {allowSelf : Bool} {segment : SegmentPlan} {rest : List SegmentPlan} {s t u : Spot} :
    segment.LeadsTo m rest.isEmpty allowSelf s t → LeadTo m false rest t u →
      LeadTo m allowSelf (segment :: rest) s u

/-! ## One scope -/

/-- How visible the nodes on a way have to be in a mode, and the last one of them. -/
def VisibilityMode.Allows (mode : VisibilityMode) (way : Spot → Prop) (t : Spot) : Prop :=
  match mode with
  | .default => ∀ u, way u → u.visible = true
  | .all => True
  | .hiddenOnly => t.visible = false

private theorem allows_resolve {m : QueryModifiers} {isFinal : Bool} {way : Spot → Prop}
    {t : Spot} :
    (VisibilityMode.resolve m.hiddenOnly m.allLayers isFinal).Allows way t ↔
      m.Allows isFinal way t := by
  rw [QueryModifiers.Allows]
  cases m.hiddenOnly <;> cases m.allLayers <;> cases isFinal <;>
    simp [VisibilityMode.resolve, VisibilityMode.Allows]

section

variable {d : Document} {s t : Spot} {segment : SegmentPlan} {matcher : NameMatcher} {host : Host}
  {m : QueryModifiers} {isFinal allowSelf : Bool}

/-- A host may be searched as it is in a mode: it hides nothing, or hidden nodes are left out
anyhow. -/
def Host.Suits (host : Host) (mode : VisibilityMode) : Prop :=
  mode = .default ∨ host.skipsInstanceChildren = false

theorem Host.Suits.shown_eq {mode : VisibilityMode} (h : host.Suits mode) (hne : mode ≠ .default) :
    host.shown = .everything := by
  rw [shown, h.resolve_left hne, exposure_false]

/-- A scope matches itself if it is a layer that is asked for; its own flag tells whether it is
visible. -/
theorem mem_ownMatches_iff (hd : d.Orderly) (hs : d.root.Holds s) :
    t ∈ ownMatches segment matcher s ↔
      fits segment matcher t = true ∧ (s.kind ≠ .page ∧ t = s) ∧
        segment.visibility.Allows (fun u ↦ u = s) t := by
  have hpage := hd.isRootLike_iff hs
  have heligible : s.kind.isRootLike = false →
      (s.isEligible segment.visibility s.parent? = true ↔
        segment.visibility.Allows (fun u ↦ u = s) s) := by
    intro hkind
    have hvisible := hd.tree.isEffectivelyVisible_parent? hs.reaches hkind
    cases segment.visibility <;> simp [Spot.isEligible, VisibilityMode.Allows, hvisible]
  rw [ownMatches, List.mem_filter, Bool.and_eq_true]
  cases hkind : s.kind.isRootLike with
  | true => simp [hpage.mp hkind]
  | false =>
    have hnot : s.kind ≠ .page := fun h ↦ by simp [hpage.mpr h] at hkind
    constructor
    · rintro ⟨hmem, hfits, heligible'⟩
      obtain rfl : t = s := by simpa using hmem
      exact ⟨hfits, ⟨hnot, rfl⟩, (heligible hkind).mp heligible'⟩
    · rintro ⟨hfits, ⟨-, rfl⟩, hallows⟩
      exact ⟨by simp, hfits, (heligible hkind).mpr hallows⟩

theorem isEligible_child_iff (hd : d.Orderly) (hs : d.root.Holds s) (ht : t ∈ s.children)
    {mode : VisibilityMode} :
    t.isEligible mode (some s) = true ↔ mode.Allows (fun u ↦ s.Holds u ∧ u.Reaches t) t := by
  have hlayers := hd.holdsOnlyLayers hs
  have hvisible : t.isEffectivelyVisible (some s) = t.visible := by
    rw [hd.tree.isEffectivelyVisible_child hs.reaches ht (hlayers.of_mem_children ht),
      hlayers t (.single ht), Bool.false_or]
  cases mode with
  | default =>
    rw [Spot.isEligible, hvisible, VisibilityMode.Allows]
    constructor
    · rintro h u ⟨hsu, hut⟩
      obtain rfl := hd.tree.eq_of_holds_of_reaches_child hs.reaches ht hsu hut
      exact h
    · exact fun h ↦ h t ⟨.single ht, .refl t⟩
  | all => simp [Spot.isEligible, VisibilityMode.Allows]
  | hiddenOnly => simp [Spot.isEligible, VisibilityMode.Allows]

theorem mem_childMatches_iff (hd : d.Orderly) (hs : d.root.Holds s)
    (hsuits : host.Suits segment.visibility) :
    t ∈ childMatches segment matcher s host ↔
      fits segment matcher t = true ∧ t ∈ s.children ∧
        segment.visibility.Allows (fun u ↦ s.Holds u ∧ u.Reaches t) t := by
  have hmatches : childMatches segment matcher s host =
      s.children.filter fun t ↦
        fits segment matcher t && t.isEligible segment.visibility (some s) := by
    by_cases hdefault : segment.visibility = .default
    · rw [hd.childMatches_eq hs.reaches hdefault, hdefault]
      rfl
    · rw [childMatches, hsuits.shown_eq hdefault]
      simp [Spot.shownChildren, Exposure.everything]
  rw [hmatches, List.mem_filter, Bool.and_eq_true, and_left_comm]
  refine and_congr_right fun _ ↦ and_congr_right fun ht ↦ ?_
  exact isEligible_child_iff hd hs ht

theorem mem_walkMatches_iff (hd : d.Orderly) (hs : d.root.Holds s)
    (hsuits : host.Suits segment.visibility) :
    t ∈ walkMatches segment matcher s host ↔
      fits segment matcher t = true ∧ s.Holds t ∧
        segment.visibility.Allows (fun u ↦ s.Holds u ∧ u.Reaches t) t := by
  by_cases hdefault : segment.visibility = .default
  · rw [hd.walkMatches_eq hs.reaches hdefault, List.mem_filter,
      hd.tree.mem_descendants_visible_iff hs.reaches, and_comm]
    simp [hdefault, VisibilityMode.Allows]
  · -- in the other modes the walk goes everywhere, and `--h` looks at the match alone
    have hprunes : segment.visibility.prunesHidden = false := by
      simpa [VisibilityMode.prunesHidden] using hdefault
    have hmatches : walkMatches segment matcher s host =
        (s.descendants .everything fun _ ↦ false).filter fun t ↦
          !(segment.visibility == .hiddenOnly && t.visible) && fits segment matcher t := by
      simp only [walkMatches, hprunes, Bool.false_and, hsuits.shown_eq hdefault]
    have hallows : (!(segment.visibility == .hiddenOnly && t.visible)) = true ↔
        segment.visibility.Allows (fun u ↦ s.Holds u ∧ u.Reaches t) t := by
      cases hmode : segment.visibility with
      | default => exact absurd hmode hdefault
      | all => simp [VisibilityMode.Allows]
      | hiddenOnly => simp [VisibilityMode.Allows]
    rw [hmatches, List.mem_filter, hd.tree.mem_descendants_everything_iff hs.reaches,
      Bool.and_eq_true, hallows]
    tauto

/-- **What is found from a scope is what a segment leads to**, in whichever way it is found. -/
theorem mem_finder_iff (hd : d.Orderly) (hs : d.root.Holds s)
    (hmode : segment.visibility = .resolve m.hiddenOnly m.allLayers isFinal)
    (hsuits : host.Suits segment.visibility) :
    t ∈ finder true host segment allowSelf s ↔ segment.LeadsTo m isFinal allowSelf s t := by
  have hbulk : finder true host segment allowSelf s = finder false host segment allowSelf s :=
    hd.finder_bulk_agreesOn allowSelf s hs
  have hwalk : bulkKinds? false segment = none := by simp [bulkKinds?]
  have hallows : ∀ way : Spot → Prop, segment.visibility.Allows way t ↔ m.Allows isFinal way t :=
    fun way ↦ by rw [hmode, allows_resolve]
  have hbelow : t ∈ matchesBelow segment (.ofQuery segment.nameQuery) s false host ↔
      fits segment (.ofQuery segment.nameQuery) t = true ∧
        (if segment.direct then t ∈ s.children else s.Holds t) ∧
          m.Allows isFinal (fun u ↦ s.Holds u ∧ u.Reaches t) t := by
    rw [matchesBelow, hwalk, ← hallows]
    cases segment.direct with
    | true => exact mem_childMatches_iff hd hs hsuits
    | false => exact mem_walkMatches_iff hd hs hsuits
  have hown : t ∈ (if allowSelf then ownMatches segment (.ofQuery segment.nameQuery) s else []) ↔
      fits segment (.ofQuery segment.nameQuery) t = true ∧
        (allowSelf = true ∧ s.kind ≠ .page ∧ t = s) ∧ m.Allows isFinal (fun u ↦ u = s) t := by
    rw [← hallows]
    cases allowSelf with
    | true => simpa using mem_ownMatches_iff hd hs
    | false => simp
  rw [hbulk, finder, List.mem_append, hown, hbelow, ← and_or_left, or_comm, fits,
    Bool.and_eq_true, and_assoc]
  rfl

theorem Document.Orderly.leadsTo_child (hd : d.Orderly) (hs : d.Has s) (hc : t ∈ s.children)
    (hvisible : t.visible = true) (hadmits : segment.symbol.admits t.layer = true)
    (hname : nameMatches segment.nameQuery t.name = true) :
    segment.LeadsTo {} isFinal allowSelf s t := by
  refine ⟨hadmits, hname, Or.inl ⟨?_, ?_⟩⟩
  · split
    · exact hc
    · exact .single hc
  · rintro u ⟨hsu, hut⟩
    obtain rfl := hd.tree.eq_of_holds_of_reaches_child hs hc hsu hut
    exact hvisible

end

/-! ## Matches that scopes have in common -/

section

variable {r t : Spot} {spots : List Spot} {found : List Found}

theorem map_spot_distinct (found : List Found) :
    (distinct found).map Found.spot = distinctSpots (found.map Found.spot) := by
  rw [distinct, map_firstOccurrences, distinctSpots]

theorem nodup_distinctSpots (spots : List Spot) : (distinctSpots spots).Nodup :=
  List.Nodup.of_map Spot.place nodup_keys_firstOccurrences

theorem mem_distinctSpots_iff (ht : r.IsTree) (hspots : ∀ s ∈ spots, r.Reaches s) :
    t ∈ distinctSpots spots ↔ t ∈ spots := by
  constructor
  · exact mem_of_firstOccurrences
  · intro h
    have hkey : t.place ∈ (distinctSpots spots).map Spot.place :=
      mem_keys_firstOccurrences.mpr ⟨List.mem_map_of_mem h, by simp⟩
    obtain ⟨u, hu, hplace⟩ := List.mem_map.mp hkey
    rwa [← ht.eq_of_place (hspots u (mem_of_firstOccurrences hu)) (hspots t h) hplace]

private theorem nodup_spots_distinct (found : List Found) :
    ((distinct found).map Found.spot).Nodup := by
  rw [map_spot_distinct]
  exact nodup_distinctSpots _

theorem mem_spots_distinct_iff (ht : r.IsTree) (hfound : ∀ f ∈ found, r.Reaches f.spot) :
    t ∈ (distinct found).map Found.spot ↔ t ∈ found.map Found.spot := by
  rw [map_spot_distinct]
  exact mem_distinctSpots_iff ht (by simpa using hfound)

end

/-! ## Segments -/

theorem leadTo_cons_iff {m : QueryModifiers} {allowSelf : Bool} {segment : SegmentPlan}
    {rest : List SegmentPlan} {s u : Spot} :
    LeadTo m allowSelf (segment :: rest) s u ↔
      ∃ t, segment.LeadsTo m rest.isEmpty allowSelf s t ∧ LeadTo m false rest t u := by
  constructor
  · rintro (_ | ⟨hsegment, hrest⟩)
    exact ⟨_, hsegment, hrest⟩
  · rintro ⟨t, hsegment, hrest⟩
    exact .cons hsegment hrest

section

variable {d : Document} {host : Host} {m : QueryModifiers} {isFirst childSearch allowSelf : Bool}
  {segment : SegmentPlan} {rest segments : List SegmentPlan} {scopes : List Spot}
  {found : List Found} {t : Spot}

/-- A segment that picks nothing keeps all that it leads to from some of the scopes. -/
theorem exists_segmentAnswer (hd : d.Orderly) (allowSelf : Bool)
    (hscopes : ∀ s ∈ scopes, d.root.Holds s)
    (harranged : QueryPlan.Arranged m isFirst (segment :: rest)) (hpick : segment.pick = none)
    (hfirst : m.firstOverall = false) (hsuits : host.Suits segment.visibility) :
    ∃ found, (finder true host).segmentAnswer segment allowSelf scopes = .ok found ∧
      (found.map Found.spot).Nodup ∧ (∀ t ∈ found.map Found.spot, d.root.Holds t) ∧
        ∀ t, t ∈ found.map Found.spot ↔
          ∃ s ∈ scopes, segment.LeadsTo m rest.isEmpty allowSelf s t := by
  obtain ⟨-, hmode, hstop, -⟩ := harranged
  have hfound : ∀ f ∈ (finder true host).foundIn segment allowSelf scopes, d.root.Holds f.spot :=
    fun f hf ↦ hd.finder_staysIn_holds.of_mem_foundIn hscopes hf
  have hmem : ∀ t, t ∈ ((finder true host).foundIn segment allowSelf scopes).map Found.spot ↔
      ∃ s ∈ scopes, segment.LeadsTo m rest.isEmpty allowSelf s t := by
    intro t
    rw [Finder.map_spot_foundIn, List.mem_flatMap]
    refine exists_congr fun s ↦ and_congr_right fun hs ↦ ?_
    exact mem_finder_iff hd (hscopes s hs) hmode hsuits
  refine ⟨distinct ((finder true host).foundIn segment allowSelf scopes), ?_,
    nodup_spots_distinct _, fun t ht ↦ ?_, fun t ↦ ?_⟩
  · rw [Finder.segmentAnswer, hpick, hstop, hfirst]
    rfl
  · obtain ⟨f, hf, rfl⟩ := List.mem_map.mp ht
    exact hfound f (mem_of_firstOccurrences hf)
  · rw [mem_spots_distinct_iff hd.tree fun f hf ↦ (hfound f hf).reaches, hmem]

/-- **Segments find what they lead to**, one after the other. -/
theorem exists_segmentsAnswer (hd : d.Orderly) (childSearch : Bool)
    (hscopes : ∀ s ∈ scopes, d.root.Holds s)
    (harranged : QueryPlan.Arranged m isFirst segments)
    (hpicks : ∀ segment ∈ segments, segment.pick = none) (hfirst : m.firstOverall = false)
    (hsuits : ∀ segment ∈ segments, host.Suits segment.visibility)
    (hfound : segments = [] → found.map Found.spot = scopes ∧ scopes.Nodup) :
    ∃ result, (finder true host).segmentsAnswer childSearch found scopes segments = .ok result ∧
      (result.map Found.spot).Nodup ∧
        ∀ t, t ∈ result.map Found.spot ↔
          ∃ s ∈ scopes, LeadTo m (isFirst && !childSearch) segments s t := by
  induction segments generalizing isFirst scopes found with
  | nil =>
    obtain ⟨hspots, hnodup⟩ := hfound rfl
    refine ⟨found, rfl, hspots ▸ hnodup, fun t ↦ ?_⟩
    rw [hspots]
    constructor
    · exact fun ht ↦ ⟨t, ht, .nil⟩
    · rintro ⟨s, hs, ⟨⟩⟩
      exact hs
  | cons segment rest ih =>
    obtain ⟨kept, hkept, hnodup, hholds, hmem⟩ :=
      exists_segmentAnswer hd (segment.isFirst && !childSearch) hscopes harranged
        (hpicks segment List.mem_cons_self) hfirst (hsuits segment List.mem_cons_self)
    obtain ⟨hplace, -, -, hrest⟩ := harranged
    obtain ⟨result, hresult, hnodup', hmem'⟩ := ih hholds hrest
      (fun segment hs ↦ hpicks segment (List.mem_cons_of_mem _ hs))
      (fun segment hs ↦ hsuits segment (List.mem_cons_of_mem _ hs)) fun _ ↦ ⟨rfl, hnodup⟩
    -- the matches of the segment are the scopes of the rest
    have hleads : ∀ t, (∃ s ∈ scopes, LeadTo m (isFirst && !childSearch) (segment :: rest) s t) ↔
        ∃ u ∈ kept.map Found.spot, LeadTo m false rest u t := by
      intro t
      simp only [leadTo_cons_iff, hmem, hplace]
      constructor
      · rintro ⟨s, hs, u, hsu, hut⟩
        exact ⟨u, ⟨s, hs, hsu⟩, hut⟩
      · rintro ⟨u, ⟨s, hs, hsu⟩, hut⟩
        exact ⟨s, hs, u, hsu, hut⟩
    refine ⟨if kept.isEmpty then [] else result, ?_, ?_, fun t ↦ ?_⟩
    · rw [Finder.segmentsAnswer, hkept]
      change (if kept.isEmpty then pure [] else _) = _
      rw [hresult]
      split <;> rfl
    · split
      · exact List.nodup_nil
      · exact hnodup'
    · rw [hleads]
      cases kept with
      | nil => simp
      | cons f kept => simpa using hmem' t

end

/-! ## Searches -/

variable {s : Session} {host : Host} {query : String} {plan : QueryPlan} {m : Monitor}

/-- The host as it is shown to a search may be searched in the modes of the query. -/
theorem QueryPlan.suits_exposed (hplan : parseQuery query = .ok plan) (host : Host) :
    ∀ segment ∈ plan.segments,
      (host.exposed plan.modifiers.includesHidden).Suits segment.visibility := by
  intro segment hsegment
  cases hhidden : plan.modifiers.includesHidden with
  | false => exact Or.inl (visibility_eq_default hplan hhidden segment hsegment)
  | true => exact Or.inr rfl

/-- An orderly host answers a query for all matches with the nodes that its segments lead to. -/
theorem Host.Orderly.exists_answer (hh : host.Orderly) (hpage : host.currentPage.kind = .page)
    (hselection : host.document.root ∉ host.selection) (hplan : parseQuery query = .ok plan)
    (hne : plan.isEmpty = false) (hdirective : plan.hasPageDirective = false)
    (hall : QueryPlan.KeepsAll query) :
    ∃ found, (host.exposed plan.modifiers.includesHidden).answer true plan = .ok (found, none) ∧
      (found.map Found.spot).Nodup ∧
        ∀ t, t ∈ found.map Found.spot ↔ ∃ scope ∈ host.scopes plan.childSearch,
          LeadTo plan.modifiers (!plan.childSearch) plan.segments scope t := by
  obtain ⟨hfirst, hfinal, hpicks⟩ := QueryPlan.picks_nothing hplan hall
  have hscopes : ∀ s ∈ host.scopes plan.childSearch, host.document.root.Holds s :=
    fun _ hs ↦ hh.holds_of_mem_scopes hpage hselection hs
  have hnil : plan.segments = [] → ([] : List Found).map Found.spot = host.scopes plan.childSearch ∧
      (host.scopes plan.childSearch).Nodup := fun hnil ↦ by simp [QueryPlan.isEmpty, hnil] at hne
  obtain ⟨found, hfound, hnodup, hmem⟩ := exists_segmentsAnswer hh.document
    plan.childSearch hscopes (QueryPlan.arranged_of_parseQuery hplan) hpicks hfirst
    (QueryPlan.suits_exposed hplan host) hnil
  refine ⟨found, ?_, hnodup, hmem⟩
  obtain ⟨-, hcurrent, hselected⟩ := host.exposed_fields plan.modifiers.includesHidden
  have hsame : (host.exposed plan.modifiers.includesHidden).scopes plan.childSearch =
      host.scopes plan.childSearch := by rw [scopes, scopes, hcurrent, hselected]
  rw [answer, Finder.answer, hdirective, hsame]
  dsimp only
  rw [hfound]
  change (finish plan found >>= fun found ↦ pure (found, none)) = _
  rw [finish, hfinal]
  rfl

/-- **What a search finds.** However a session came about, a search for all matches of a query that
nothing disturbs finds, each once, the nodes that the segments of the query lead to from one of the
starting scopes. -/
theorem Session.mem_search_iff_leadTo (h : s.Reached false) (hh : s.host.Orderly)
    (hpage : s.host.currentPage.kind = .page)
    (hselection : s.host.document.root ∉ s.host.selection)
    (hplan : parseQuery query = .ok plan) (hne : plan.isEmpty = false)
    (hdirective : plan.hasPageDirective = false) (hall : QueryPlan.KeepsAll query)
    (hm : m.Calm) :
    ∃ r, (s.search query m).1 = .ok r ∧ r.nodes.Nodup ∧
      ∀ t, t ∈ r.nodes ↔ ∃ scope ∈ s.host.scopes plan.childSearch,
        LeadTo plan.modifiers (!plan.childSearch) plan.segments scope t := by
  obtain ⟨hsettings, htruthful⟩ := h.keepsUp
  obtain ⟨found, hfound, hnodup, hmem⟩ :=
    hh.exists_answer hpage hselection hplan hne hdirective hall
  have htold := (htruthful rfl).told_search hsettings hh hm hplan
  rw [hfound] at htold
  have hsearch : (s.search query m).1 = (s.engine.search s.host query m).1 := by rw [search_eq]
  rw [hsearch]
  generalize (s.engine.search s.host query m).1 = outcome at htold
  cases outcome with
  | error fault => cases htold
  | ok r =>
    obtain rfl : r.results = found := congrArg Prod.fst (Except.ok.inj htold)
    exact ⟨r, rfl, hnodup, hmem⟩

/-- For instance the title of a card is found as a child of the card. -/
theorem Session.mem_search_iff_leadTo_cards :
    ∃ r, ((⟨.ofCards, .new⟩ : Session).search "Card//Title" {}).1 = .ok r ∧
      r.nodes.Nodup ∧ Document.cardTitle ∈ r.nodes := by
  have hstart : (⟨.ofCards, .new⟩ : Session).Reached false :=
    .start .ofCards Engine.create_responseCapacity
  have hpieces : QueryPlan.cleanPieces "Card//Title" =
      .ok [⟨.start, "Card".toList, []⟩, ⟨.direct, "Title".toList, []⟩] := by rfl
  have hall : QueryPlan.KeepsAll "Card//Title" := by
    intro pieces h p hp w hw
    obtain rfl := Except.ok.inj (hpieces.symm.trans h)
    simp only [List.mem_cons, List.not_mem_nil, or_false] at hp
    rcases hp with rfl | rfl <;> cases hw
  obtain ⟨r, hr, hnodup, hmem⟩ := mem_search_iff_leadTo hstart Host.orderly_ofCards rfl nofun
    ((QueryPlan.parseQuery_eq _).trans (congrArg _ hpieces)) rfl rfl hall Monitor.calm_default
  refine ⟨r, hr, hnodup, (hmem _).mpr ⟨Document.cardPage, List.mem_singleton.mpr rfl, ?_⟩⟩
  have hpage := Host.orderly_ofCards.currentPage
  have hcard : Document.card ∈ Document.cardPage.children := List.mem_singleton.mpr rfl
  have htitle : Document.cardTitle ∈ Document.card.children := List.mem_cons_self
  refine .cons (t := Document.card) ?_ (.cons (t := Document.cardTitle) ?_ .nil)
  · exact Document.orderly_cards.leadsTo_child hpage hcard rfl rfl rfl
  · exact Document.orderly_cards.leadsTo_child (hpage.child hcard) htitle rfl rfl rfl

end SceneSearch
