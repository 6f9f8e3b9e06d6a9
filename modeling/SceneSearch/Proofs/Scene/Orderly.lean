import SceneSearch.Proofs.Scene.Descent
import SceneSearch.Search.Host

/-!
# Orderly documents

A document is a root of kind `document` whose children are pages, and what a page holds are layers.
Nothing in the representation says so: kinds are as the export has them, ids may be repeated, and
links go anywhere. `Document.Labelled` asks for a tree and for ids that tell nodes apart, which is
what an import sees to and what an evaluation needs to come to an answer. `Document.Orderly` states
what a document is expected to be beyond that: pages that the root lists and no other node holds.
That a child of the root is a page is not asked for, since nothing depends on it.

The one consequence that searches rest on is `Orderly.holdsOnlyLayers`: below the root nothing on
the way up from a node to a scope is a page, so no way up ends before it comes to the scope.
-/

namespace SceneSearch

/-- Nothing strictly below the node is a page or a document. -/
def Spot.HoldsOnlyLayers (s : Spot) : Prop := ∀ t, s.Holds t → t.kind.isRootLike = false

namespace Document

/-- The node is at or below the root of the document. -/
def Has (d : Document) (s : Spot) : Prop := d.root.Reaches s

/-- The links of the document are those of a tree, and its ids are those of one node each. -/
structure Labelled (d : Document) : Prop where
  /-- The links are those of a tree. -/
  tree : d.root.IsTree
  /-- Ids tell nodes apart. -/
  eq_of_id : ∀ {s t : Spot}, d.Has s → d.Has t → s.id = t.id → s = t

/-- What a document is expected to be. -/
structure Orderly (d : Document) : Prop where
  /-- The links are those of a tree. -/
  tree : d.root.IsTree
  /-- The root is a document. -/
  kind_root : d.root.kind = .document
  /-- Below the root no node is a document, and the pages are those that the root lists. -/
  page_at_top : ∀ {s : Spot}, d.root.Holds s → s.kind.isRootLike = true →
    s.kind = .page ∧ s ∈ d.root.children
  /-- Ids tell nodes apart. -/
  eq_of_id : ∀ {s t : Spot}, d.Has s → d.Has t → s.id = t.id → s = t

variable {d : Document} {s t : Spot}

theorem Orderly.labelled (hd : d.Orderly) : d.Labelled := ⟨hd.tree, hd.eq_of_id⟩

theorem has_root (d : Document) : d.Has d.root := .refl _

theorem Has.holds (hs : d.Has s) (h : s.Holds t) : d.Has t := hs.trans h.reaches

theorem Has.holds_root (hs : d.Has s) (hne : s ≠ d.root) : d.root.Holds s :=
  (Spot.reaches_iff_eq_or_holds.mp hs).resolve_left hne

/-! ## Kinds -/

namespace Orderly

theorem ne_root_of_kind (hd : d.Orderly) (h : s.kind ≠ .document) : s ≠ d.root := by
  rintro rfl
  exact h hd.kind_root

/-- **Layers hold layers**, and so do pages: only what the root lists may be a page. -/
theorem holdsOnlyLayers (hd : d.Orderly) (hs : d.root.Holds s) : s.HoldsOnlyLayers := by
  intro t ht
  by_contra hkind
  -- a page below `s` has the root as its parent, which would then be below itself
  obtain ⟨-, hmem⟩ := hd.page_at_top (hs.trans ht) (by simpa using hkind)
  obtain ⟨p, hp, hpt⟩ := Spot.holds_iff_exists_parent.mp ht
  obtain rfl := hd.tree.parent_unique (hs.reaches.trans hp) (.refl _) hpt hmem
  exact hd.tree.not_holds_self (.refl _) (Relation.TransGen.trans_left hs hp)

theorem holdsOnlyLayers_of_kind (hd : d.Orderly) (hs : d.Has s) (h : s.kind ≠ .document) :
    s.HoldsOnlyLayers :=
  hd.holdsOnlyLayers (hs.holds_root (hd.ne_root_of_kind h))

theorem isRootLike_iff (hd : d.Orderly) (hs : d.root.Holds s) :
    s.kind.isRootLike = true ↔ s.kind = .page := by
  constructor
  · exact fun h ↦ (hd.page_at_top hs h).1
  · intro h
    rw [h]
    rfl

end Orderly

/-! ## Documents as they are loaded -/

end Document

theorem Spot.nodup_ownChildren (s : Spot) : s.ownChildren.Nodup := by
  rw [ownChildren, List.nodup_iff_getElem?_ne_getElem?]
  intro i j hij hj heq
  rw [List.length_mapIdx] at hj
  rw [List.getElem?_mapIdx, List.getElem?_mapIdx, List.getElem?_eq_getElem hj,
    List.getElem?_eq_getElem (Nat.lt_trans hij hj)] at heq
  have hplace := congrArg place (Option.some.inj heq)
  simp only [place_child, Place.mk.injEq, List.append_cancel_left_eq, List.cons.injEq] at hplace
  omega

theorem Spot.links_eq_of_reaches {r s : Spot} (hlinks : r.scene.links = {}) (h : r.Reaches s) :
    s.scene.links = {} := by
  induction h with
  | refl => exact hlinks
  | tail _ hc ih =>
    rw [children_of_links_eq ih] at hc
    obtain ⟨i, hi, rfl⟩ := List.mem_mapIdx.mp hc
    exact ih

namespace Document

variable {d : Document}

theorem isTree_of_links_eq (h : d.scene.links = {}) : d.root.IsTree where
  stands := rfl
  parent?_root := Spot.parent?_of_links_eq (s := d.root) h
  parent?_child := by
    intro s c hs hc
    have hlinks := Spot.links_eq_of_reaches h hs
    rw [Spot.children_of_links_eq hlinks] at hc
    obtain ⟨i, hi, rfl⟩ := List.mem_mapIdx.mp hc
    exact Spot.parent?_child hlinks i _
  nodup_children := by
    intro s hs
    rw [Spot.children_of_links_eq (Spot.links_eq_of_reaches h hs)]
    exact s.nodup_ownChildren

theorem labelled_of_links_eq (hlinks : d.scene.links = {})
    (hids : (d.root.subtree.map Spot.id).Nodup) : d.Labelled where
  tree := isTree_of_links_eq hlinks
  eq_of_id := by
    intro s t hs ht hid
    have hmem : ∀ {s}, s ∈ d.root.subtree ↔ d.Has s :=
      (isTree_of_links_eq hlinks).mem_subtree_iff (.refl _)
    exact List.inj_on_of_nodup_map hids (hmem.mpr hs) (hmem.mpr ht) hid

/-- A tree is orderly if its root lists pages, nothing below a page is a page or a document, and ids
tell nodes apart. -/
theorem orderly_of_pages (ht : d.root.IsTree) (hroot : d.root.kind = .document)
    (hpages : ∀ c ∈ d.root.children, c.kind = .page)
    (hlayers : ∀ s, d.Has s → s.kind = .page → s.HoldsOnlyLayers)
    (hids : ∀ s t, d.Has s → d.Has t → s.id = t.id → s = t) : d.Orderly where
  tree := ht
  kind_root := hroot
  page_at_top := by
    intro s hs hkind
    obtain ⟨c, hc, hcs⟩ := Spot.holds_iff_exists_child.mp hs
    rcases Spot.reaches_iff_eq_or_holds.mp hcs with rfl | hholds
    · exact ⟨hpages s hc, hc⟩
    · have hc' : d.Has c := (Spot.Reaches.refl _).child hc
      rw [hlayers c hc' (hpages c hc) s hholds] at hkind
      cases hkind
  eq_of_id hs ht hid := hids _ _ hs ht hid

/-- A document whose links were never changed is orderly if its kinds and ids are. -/
theorem orderly_of_links_eq (hlinks : d.scene.links = {}) (hroot : d.root.kind = .document)
    (hpages : ∀ c ∈ d.root.children, c.kind = .page)
    (hlayers : ∀ s ∈ d.root.subtree, s.kind = .page →
      ∀ t ∈ s.descendants .everything (fun _ ↦ false), t.kind.isRootLike = false)
    (hids : (d.root.subtree.map Spot.id).Nodup) : d.Orderly := by
  have htree := isTree_of_links_eq hlinks
  refine orderly_of_pages htree hroot hpages (fun s hs hkind t ht ↦ ?_) fun s t hs ht hid ↦ ?_
  · exact hlayers s ((htree.mem_subtree_iff (.refl _)).mpr hs) hkind t
      ((htree.mem_descendants_everything_iff hs).mpr ht)
  · exact (labelled_of_links_eq hlinks hids).eq_of_id hs ht hid

end Document

/-! ## Hosts of orderly documents -/

/-- The host shows a document whose nodes can be told apart: the current page and what is selected
are nodes of it. -/
structure Host.Labelled (h : Host) : Prop where
  /-- The nodes of the document can be told apart. -/
  document : h.document.Labelled
  /-- The current page is a node of it. -/
  currentPage : h.document.Has h.currentPage
  /-- What is selected are nodes of it. -/
  selection : ∀ s ∈ h.selection, h.document.Has s

/-- The host shows an orderly document: the current page and what is selected are nodes of it. -/
structure Host.Orderly (h : Host) : Prop where
  /-- The document is what it is expected to be. -/
  document : h.document.Orderly
  /-- The current page is a node of it. -/
  currentPage : h.document.Has h.currentPage
  /-- What is selected are nodes of it. -/
  selection : ∀ s ∈ h.selection, h.document.Has s

theorem Host.Orderly.labelled {h : Host} (hh : h.Orderly) : h.Labelled :=
  ⟨hh.document.labelled, hh.currentPage, hh.selection⟩

/-! ## A small document -/

/-- The title of a card. -/
def Node.cardTitle : Node := ⟨{ id := "1:3", kind := .text, name := "Title" }, []⟩

/-- A card with a title and a hidden caption. -/
def Node.card : Node :=
  ⟨{ id := "1:2", kind := .frame, name := "Card" },
    [.cardTitle, ⟨{ id := "1:4", kind := .text, name := "Caption", visible := false }, []⟩]⟩

/-- A page with nothing but a card. -/
def Node.cardPage : Node := ⟨{ id := "1:1", kind := .page, name := "Home" }, [.card]⟩

/-- A document with that page only. -/
def Document.cards : Document := .ofRoot ⟨{ id := "0:0", kind := .document }, [.cardPage]⟩

/-- Its page. -/
def Document.cardPage : Spot := cards.root.child 0 .cardPage

/-- The card on it. -/
def Document.card : Spot := cardPage.child 0 .card

/-- The title of that card. -/
def Document.cardTitle : Spot := card.child 0 .cardTitle

/-- The host that shows the page. -/
def Host.ofCards : Host := { document := .cards, currentPage := Document.cardPage }

theorem Document.orderly_cards : cards.Orderly :=
  orderly_of_links_eq rfl rfl (by decide) (by decide) (by decide)

theorem Host.orderly_ofCards : ofCards.Orderly where
  document := Document.orderly_cards
  currentPage := (Document.has_root _).holds (.single (List.mem_singleton.mpr rfl))
  selection := nofun

end SceneSearch
