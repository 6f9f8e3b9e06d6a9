import SceneSearch.Proofs.Search.Caching

/-!
# Selections that are left over

A node that is taken out of the document goes on to be selected. Two things that hold of nodes of
the document are then no longer true, and remembered answers show it. Another node may have the id
of a selected one, as in `Session.twinActs`. And the selected node may hold a page, at which the way
up from a node ends, so that the invisible children of an instance make a difference, as in
`Session.buttonActs`. In both sessions every document on the way is orderly, and the caches are
cleared after the edits.
-/

namespace SceneSearch

/-! ## Orderly documents with changed links -/

/-- A document with one page is orderly if its root lists that page only, and what the page lists
are layers without children. -/
private theorem Document.orderly_of_one_page {d : Document} {page : Spot} {layers : List Spot}
    (hroot : d.root.kind = .document ∧ d.root.parent? = none ∧ d.root.children = [page])
    (hpage : page.kind = .page ∧ page.parent? = some d.root ∧ page.children = layers)
    (hlayers : ∀ c ∈ layers, c.kind.isRootLike = false ∧ c.parent? = some page ∧ c.children = [])
    (hids : ((d.root :: page :: layers).map Spot.id).Nodup) : d.Orderly := by
  obtain ⟨hroot, hnone, hpages⟩ := hroot
  obtain ⟨hpage, hparent, rfl⟩ := hpage
  have hcases : ∀ {s}, d.root.Reaches s → s = d.root ∨ s = page ∨ s ∈ page.children := by
    intro s hs
    induction hs with
    | refl => exact Or.inl rfl
    | tail _ hts ih =>
      rcases ih with rfl | rfl | ht
      · rw [hpages] at hts
        exact Or.inr (Or.inl (List.mem_singleton.mp hts))
      · exact Or.inr (Or.inr hts)
      · rw [(hlayers _ ht).2.2] at hts
        cases hts
  have hmem : ∀ {s}, d.root.Reaches s → s ∈ d.root :: page :: page.children := fun hs ↦ by
    simpa using hcases hs
  have hnodup : page.children.Nodup :=
    ((List.nodup_cons.mp (List.nodup_cons.mp hids).2).2).of_map
  have hparents : ∀ {s c}, d.root.Reaches s → c ∈ s.children → c.parent? = some s := by
    intro s c hs hc
    rcases hcases hs with rfl | rfl | hs
    · rw [hpages] at hc
      rw [List.mem_singleton.mp hc]
      exact hparent
    · exact (hlayers c hc).2.1
    · rw [(hlayers s hs).2.2] at hc
      cases hc
  refine ⟨⟨rfl, hnone, hparents, ?_⟩, hroot, ?_, fun hs ht ↦
    List.inj_on_of_nodup_map hids (hmem hs) (hmem ht)⟩
  · intro s hs
    rcases hcases hs with rfl | rfl | hs
    · rw [hpages]
      exact List.nodup_singleton page
    · exact hnodup
    · rw [(hlayers s hs).2.2]
      exact List.nodup_nil
  · intro s hs hkind
    rcases hcases hs.reaches with rfl | rfl | hs
    · obtain ⟨t, ht, hts⟩ := Spot.holds_iff_exists_parent.mp hs
      cases hnone.symm.trans (hparents ht hts)
    · rw [hpages]
      exact ⟨hpage, List.mem_singleton.mpr rfl⟩
    · rw [(hlayers s hs).1] at hkind
      cases hkind

/-! ## Answers that are not those of a new engine -/

private theorem told_ne_of_paths {x y : Except SearchFault Response}
    (h : (x.toOption.map fun r ↦ r.results.map Found.path) ≠
      y.toOption.map fun r ↦ r.results.map Found.path) :
    x.map Response.told ≠ y.map Response.told := by
  intro heq
  have hpaths (z : Except SearchFault Response) :
      (z.toOption.map fun r ↦ r.results.map Found.path) =
        (z.map Response.told).toOption.map fun told ↦ told.1.map Found.path := by
    cases z <;> rfl
  exact h (by rw [hpaths, hpaths, heq])

namespace Session

/-- The session after some acts. -/
def follow (s : Session) (acts : List Act) : Session := acts.foldl after s

/-- Every document that a session shows in some acts has a property. -/
def Keeps (p : Document → Prop) (s : Session) : List Act → Prop
  | [] => p s.host.document
  | a :: rest => p s.host.document ∧ (s.after a).Keeps p rest

/-- After some acts on a host, on whose way every document is orderly and none is searched after an
edit until the caches are cleared, a query is answered otherwise than with a new engine. -/
structure GoesStale (host : Host) (acts : List Act) (query : String) : Prop where
  /-- Every document is orderly. -/
  orderly : (⟨host, .new⟩ : Session).Keeps Document.Orderly acts
  /-- No edited document is searched. -/
  arises : ∃ asked, (follow ⟨host, .new⟩ acts).Arises false asked
  /-- The answers are different. -/
  told : ((follow ⟨host, .new⟩ acts).search query {}).1.map Response.told ≠
    (({ follow ⟨host, .new⟩ acts with engine := .new } : Session).search query {}).1.map
      Response.told

private theorem document_after (s : Session) {a : Act} (h : ∀ scene, a ≠ .edit scene) :
    (s.after a).host.document = s.host.document := by
  cases a with
  | search query m => rw [after_search]
  | showPage page =>
    rw [after, Host.setCurrentPage]
    split
    · rename_i heq
      split at heq
      · cases heq
        rfl
      · cases heq
    · rfl
  | edit scene => exact absurd rfl (h scene)
  | select _ | hideInstanceChildren _ | clearCaches => rfl

end Session

/-! ## The id of another node -/

/-- A card with an id. -/
def Node.twin (id : String) : Node := ⟨{ id, kind := .frame, name := "Card" }, []⟩

/-- A page with two cards. -/
def Node.twinPage : Node :=
  ⟨{ id := "1:1", kind := .page, name := "Home" }, [.twin "1:2", .twin "1:3"]⟩

def Document.twins : Document :=
  .ofRoot ⟨{ id := "0:0", kind := .document, name := "Doc" }, [.twinPage]⟩

/-- The first card. -/
def Document.firstTwin : Spot := (twins.root.child 0 .twinPage).child 0 (.twin "1:2")

/-- The scene without the first card in its document. -/
def Scene.detachedTwin : Scene := Document.twins.scene.detach Document.firstTwin

/-- The same, where the first card has the id of the second one. -/
def Scene.renamedTwin : Scene :=
  detachedTwin.revise Document.firstTwin.place fun l ↦ { l with id := "1:3" }

/-- The second card in that scene. -/
def Scene.secondTwin : Option Spot := renamedTwin.at? ⟨0, [0, 1]⟩

def Host.ofTwins : Host :=
  { document := .twins, currentPage := Document.twins.root.child 0 .twinPage }

/-- The first card is selected, taken out of the document and given the id of the second one; it is
searched, and then the second one is selected. -/
def Session.twinActs : List Session.Act :=
  [.select [Document.firstTwin], .edit .detachedTwin, .edit .renamedTwin, .clearCaches,
    .search "@Card" {}, .select Scene.secondTwin.toList]

private theorem Document.orderly_twins : twins.Orderly :=
  orderly_of_one_page ⟨rfl, rfl, rfl⟩ ⟨rfl, rfl, rfl⟩
    (List.forall_mem_cons.mpr ⟨⟨rfl, rfl, rfl⟩, List.forall_mem_singleton.mpr ⟨rfl, rfl, rfl⟩⟩)
    (by decide : ["0:0", "1:1", "1:2", "1:3"].Nodup)

private theorem Document.orderly_detachedTwin (index : List (String × Place)) :
    (⟨.detachedTwin, index⟩ : Document).Orderly :=
  orderly_of_one_page ⟨rfl, rfl, rfl⟩ ⟨rfl, rfl, rfl⟩
    (List.forall_mem_singleton.mpr ⟨rfl, rfl, rfl⟩) (by decide : ["0:0", "1:1", "1:3"].Nodup)

private theorem Document.orderly_renamedTwin (index : List (String × Place)) :
    (⟨.renamedTwin, index⟩ : Document).Orderly :=
  orderly_of_one_page ⟨rfl, rfl, rfl⟩ ⟨rfl, rfl, rfl⟩
    (List.forall_mem_singleton.mpr ⟨rfl, rfl, rfl⟩) (by decide : ["0:0", "1:1", "1:3"].Nodup)

private theorem Session.goesStale_twinActs : GoesStale .ofTwins twinActs "@Card" where
  orderly :=
    have hrenamed := Document.orderly_renamedTwin Document.twins.index
    ⟨Document.orderly_twins, Document.orderly_twins, Document.orderly_detachedTwin _, hrenamed,
      hrenamed, by rw [document_after]; exacts [hrenamed, nofun],
      by rw [Keeps, document_after, document_after]; exacts [hrenamed, nofun, nofun]⟩
  arises := by
    have hstart : (⟨.ofTwins, .new⟩ : Session).Arises false [] :=
      .start .ofTwins Engine.create_responseCapacity
    have hcleared := (((hstart.act (.select [Document.firstTwin]) trivial).act (.edit .detachedTwin)
      trivial).act (.edit .renamedTwin) trivial).act .clearCaches trivial
    exact ⟨_, (hcleared.act (.search "@Card" {}) rfl).act (.select Scene.secondTwin.toList) trivial⟩
  told := told_ne_of_paths (by decide +kernel)

/-! ## A page below an instance -/

/-- An instance with a hidden icon. -/
def Node.iconButton : Node :=
  ⟨{ id := "1:2", kind := .instanceLayer, name := "Button" },
    [⟨{ id := "1:3", kind := .frame, name := "Icon", visible := false }, []⟩]⟩

/-- A page with that instance. -/
def Node.buttonPage : Node := ⟨{ id := "1:1", kind := .page, name := "Home" }, [.iconButton]⟩

/-- A page with a card, to be loaded. -/
def Node.oldPage : Node :=
  ⟨{ id := "1:4", kind := .page, name := "Old" },
    [⟨{ id := "1:5", kind := .frame, name := "Card" }, []⟩]⟩

def Document.button : Document :=
  .ofRoot ⟨{ id := "0:0", kind := .document, name := "Doc" }, [.buttonPage]⟩

def Document.iconButton : Spot := (button.root.child 0 .buttonPage).child 0 .iconButton

/-- The scene without the instance in its document. -/
def Scene.detachedButton : Scene := Document.button.scene.detach Document.iconButton

/-- The same, with the page below the icon. -/
def Scene.pagedButton : Scene :=
  match detachedButton.at? ⟨0, [0, 0, 0]⟩ with
  | some icon => detachedButton.add icon .oldPage
  | none => detachedButton

def Host.ofButton : Host :=
  { document := .button, currentPage := Document.button.root.child 0 .buttonPage }

/-- The instance is selected and taken out of the document, and a page is put below its icon; it is
searched, and then the host no longer hides the icon. -/
def Session.buttonActs : List Session.Act :=
  [.select [Document.iconButton], .edit .detachedButton, .edit .pagedButton, .clearCaches,
    .search "@Card" {}, .hideInstanceChildren false]

private theorem Document.orderly_button : button.Orderly :=
  orderly_of_links_eq rfl rfl (by decide) (by decide) (by decide)

private theorem Document.orderly_detachedButton (index : List (String × Place)) :
    (⟨.detachedButton, index⟩ : Document).Orderly :=
  orderly_of_one_page ⟨rfl, rfl, rfl⟩ ⟨rfl, rfl, rfl⟩ nofun (by decide : ["0:0", "1:1"].Nodup)

private theorem Document.orderly_pagedButton (index : List (String × Place)) :
    (⟨.pagedButton, index⟩ : Document).Orderly :=
  orderly_of_one_page ⟨rfl, rfl, rfl⟩ ⟨rfl, rfl, rfl⟩ nofun (by decide : ["0:0", "1:1"].Nodup)

private theorem Session.goesStale_buttonActs : GoesStale .ofButton buttonActs "@Card" where
  orderly :=
    have hpaged := Document.orderly_pagedButton Document.button.index
    ⟨Document.orderly_button, Document.orderly_button, Document.orderly_detachedButton _, hpaged,
      hpaged, by rw [document_after]; exacts [hpaged, nofun],
      by rw [Keeps, document_after, document_after]; exacts [hpaged, nofun, nofun]⟩
  arises := by
    have hstart : (⟨.ofButton, .new⟩ : Session).Arises false [] :=
      .start .ofButton Engine.create_responseCapacity
    have hcleared := (((hstart.act (.select [Document.iconButton]) trivial).act
      (.edit .detachedButton) trivial).act (.edit .pagedButton) trivial).act .clearCaches trivial
    exact ⟨_, (hcleared.act (.search "@Card" {}) rfl).act (.hideInstanceChildren false) trivial⟩
  told := told_ne_of_paths (by decide +kernel)

/-- **Caches show through** where a selection is left over: another node comes to have the id of a
selected one, or a page comes to stand below an instance whose invisible children are hidden. -/
theorem Session.goesStale :
    GoesStale .ofTwins twinActs "@Card" ∧ GoesStale .ofButton buttonActs "@Card" :=
  ⟨goesStale_twinActs, goesStale_buttonActs⟩

end SceneSearch
