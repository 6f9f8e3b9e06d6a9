import SceneSearch.Proofs.Number.Rounding
import SceneSearch.Proofs.Search.Rows
import SceneSearch.Proofs.Traversal

/-!
# Rows as bands

Rows are cut while centres are gone through from top to bottom, and all that is kept of a row is
where it starts. What comes of it can be said without going through anything, `Banding`: rows are
numbered in the order of centres, a row starts at its least centre, no centre is far from the start
of its row, and the next row starts far from it. So a chain of close centres is cut where it has
gone too far from the start, and not where two neighbours are far apart.

Nodes have one such numbering only. Of the nodes that are in no row before, those that are near the
least centre make up the next one: whatever is further down is not nearer, since differences of
doubles are in order.
-/

namespace SceneSearch

variable {centre : Spot → Float} {epsilon : Float} {spots : List Spot} {s : Spot} {i : Nat}

/-- Nodes are numbered by rows up to the row `last`, and the row `i` starts at `start i`. -/
structure Banding (centre : Spot → Float) (epsilon : Float) (spots : List Spot) (row : Spot → Nat)
    (last : Nat) (start : Nat → Float) : Prop where
  /-- All numbers up to the last one are those of rows. -/
  numbers : ∀ i, (∃ s ∈ spots, row s = i) ↔ i ≤ last
  /-- Rows are in the order of centres. -/
  ordered : ∀ a ∈ spots, ∀ b ∈ spots, centre a < centre b → row a ≤ row b
  /-- Equal centres share a row. -/
  shared : ∀ a ∈ spots, ∀ b ∈ spots, (centre a == centre b) = true → row a = row b
  /-- A row starts at the centre of one of its nodes. -/
  attained : ∀ i ≤ last, ∃ s ∈ spots, row s = i ∧ centre s = start i
  /-- No centre is above the start of its row. -/
  least : ∀ s ∈ spots, start (row s) ≤ centre s
  /-- No centre is far from the start of its row. -/
  near : ∀ s ∈ spots, centre s - start (row s) ≤ epsilon
  /-- The next row starts far from it. -/
  far : ∀ i < last, epsilon < start (i + 1) - start i

/-! ## One numbering -/

namespace Banding

variable {row row' : Spot → Nat} {last last' : Nat} {start start' : Nat → Float}

theorem row_le_last (h : Banding centre epsilon spots row last start) (hs : s ∈ spots) :
    row s ≤ last := (h.numbers _).mp ⟨s, hs, rfl⟩

theorem isFinite_start (h : Banding centre epsilon spots row last start)
    (hfinite : ∀ s ∈ spots, (centre s).isFinite) (hi : i ≤ last) : (start i).isFinite := by
  obtain ⟨t, ht, -, hstart⟩ := h.attained i hi
  exact hstart ▸ hfinite t ht

theorem extent_start_le (h : Banding centre epsilon spots row last start)
    (hfinite : ∀ s ∈ spots, (centre s).isFinite) (hs : s ∈ spots) (hi : i ≤ row s) :
    extent (start i) ≤ extent (centre s) := by
  have hnumber : ∀ t ∈ spots, centre t ≠ Float.nan := fun t ht ↦ ne_nan_of_isFinite (hfinite t ht)
  obtain ⟨t, ht, rfl, hstart⟩ := h.attained i (hi.trans (h.row_le_last hs))
  by_contra hlt
  have hbelow : centre s < centre t := by
    rw [lt_iff_extent (hnumber s hs) (hnumber t ht), hstart]
    omega
  have hsame : row s = row t := Nat.le_antisymm (h.ordered s hs t ht hbelow) hi
  have hleast := h.least s hs
  rw [hsame, ← hstart, le_iff_extent (hnumber t ht) (hnumber s hs), hstart] at hleast
  exact hlt hleast

/-- **Of the nodes that are in no row before, those near the start make up a row.** -/
theorem row_eq_iff (h : Banding centre epsilon spots row last start)
    (hepsilon : epsilon ≠ Float.nan) (hfinite : ∀ s ∈ spots, (centre s).isFinite) (hs : s ∈ spots)
    (hi : i ≤ row s) : row s = i ↔ centre s - start i ≤ epsilon := by
  constructor
  · rintro rfl
    exact h.near s hs
  · intro hnear
    by_contra hne
    have hlast := h.row_le_last hs
    have hstart := h.isFinite_start hfinite (i := i) (by omega)
    have hnext := h.isFinite_start hfinite (i := i + 1) (by omega)
    have hfar := h.far i (by omega)
    have hmono := extent_sub_mono hnext (hfinite s hs) hstart
      (h.extent_start_le hfinite hs (by omega))
    rw [lt_iff_extent hepsilon (sub_ne_nan hnext hstart)] at hfar
    rw [le_iff_extent (sub_ne_nan (hfinite s hs) hstart) hepsilon] at hnear
    omega

/-- Rows of the same nodes, apart from those in rows before, have the same start. -/
theorem extent_start_le_start (h : Banding centre epsilon spots row last start)
    (h' : Banding centre epsilon spots row' last' start')
    (hfinite : ∀ s ∈ spots, (centre s).isFinite) (hsame : ∀ s ∈ spots, i ≤ row s ↔ i ≤ row' s)
    (hi : i ≤ last') : extent (start i) ≤ extent (start' i) := by
  obtain ⟨t, ht, rfl, hstart⟩ := h'.attained i hi
  rw [← hstart]
  exact h.extent_start_le hfinite ht ((hsame t ht).mpr (Nat.le_refl _))

theorem le_row_iff (h : Banding centre epsilon spots row last start)
    (h' : Banding centre epsilon spots row' last' start') (hepsilon : epsilon ≠ Float.nan)
    (hfinite : ∀ s ∈ spots, (centre s).isFinite) (i : Nat) :
    ∀ s ∈ spots, i ≤ row s ↔ i ≤ row' s := by
  induction i with
  | zero => exact fun s _ ↦ iff_of_true (Nat.zero_le _) (Nat.zero_le _)
  | succ i ih =>
    intro s hs
    by_cases hi : i ≤ row s
    · have hi' : i ≤ row' s := (ih s hs).mp hi
      have hlast : i ≤ last := hi.trans (h.row_le_last hs)
      have hlast' : i ≤ last' := hi'.trans (h'.row_le_last hs)
      have hstart := h.isFinite_start hfinite hlast
      have hstart' := h'.isFinite_start hfinite hlast'
      -- so what is left has the same least centre, and the same nodes are near it
      have hunits : units (start i) = units (start' i) := by
        have hle := h.extent_start_le_start h' hfinite ih hlast'
        have hge := h'.extent_start_le_start h hfinite (fun t ht ↦ (ih t ht).symm) hlast
        rw [extent_eq_units hstart, extent_eq_units hstart'] at hle hge
        omega
      have hnear : row s = i ↔ row' s = i := by
        rw [h.row_eq_iff hepsilon hfinite hs hi, h'.row_eq_iff hepsilon hfinite hs hi',
          le_iff_extent (sub_ne_nan (hfinite s hs) hstart) hepsilon,
          le_iff_extent (sub_ne_nan (hfinite s hs) hstart') hepsilon,
          extent_sub (hfinite s hs) hstart, extent_sub (hfinite s hs) hstart', hunits]
      omega
    · have hi' : ¬i ≤ row' s := fun h ↦ hi ((ih s hs).mpr h)
      omega

/-- **Nodes have one numbering by rows only.** -/
theorem row_unique (h : Banding centre epsilon spots row last start)
    (h' : Banding centre epsilon spots row' last' start') (hepsilon : epsilon ≠ Float.nan)
    (hfinite : ∀ s ∈ spots, (centre s).isFinite) (hs : s ∈ spots) : row' s = row s :=
  Nat.le_antisymm ((h.le_row_iff h' hepsilon hfinite _ s hs).mpr (Nat.le_refl _))
    ((h.le_row_iff h' hepsilon hfinite _ s hs).mp (Nat.le_refl _))

end Banding

/-! ## One pass -/

namespace Rows

variable {centres : List Float} {row first last : Nat} {c origin : Float} {start : Nat → Float}
  {rows : List (Float × Nat)}

/-- Centres are given rows from `first` to `last`, and those behind the first one are opened on the
way. -/
structure Cut (epsilon : Float) (first last : Nat) (start : Nat → Float)
    (rows : List (Float × Nat)) : Prop where
  /-- The first row is not behind the last one. -/
  le : first ≤ last
  /-- Rows have numbers from the first to the last one. -/
  bounds : ∀ p ∈ rows, first ≤ p.2 ∧ p.2 ≤ last
  /-- Rows follow each other. -/
  ordered : rows.Pairwise fun p q ↦ p.2 ≤ q.2
  /-- No centre is above the start of its row. -/
  least : ∀ p ∈ rows, ¬p.1 < start p.2
  /-- No centre is far from the start of its row. -/
  near : ∀ p ∈ rows, ¬epsilon < p.1 - start p.2
  /-- Rows that are opened start at a centre. -/
  attained : ∀ i, first < i → i ≤ last → (start i, i) ∈ rows
  /-- The next row starts far from the start of a row. -/
  far : ∀ i, first ≤ i → i < last → epsilon < start (i + 1) - start i

theorem cut_nil (epsilon : Float) (first : Nat) (start : Nat → Float) :
    Cut epsilon first first start [] where
  le := Nat.le_refl _
  bounds := nofun
  ordered := .nil
  least := nofun
  near := nofun
  attained := fun _ hlt hle ↦ absurd hlt (Nat.not_lt.mpr hle)
  far := fun _ hle hlt ↦ absurd hle (Nat.not_le.mpr hlt)

/-- A centre that is near the start of the open row goes to that row. -/
theorem Cut.stay (h : Cut epsilon first last start rows) (hleast : ¬c < start first)
    (hnear : ¬epsilon < c - start first) : Cut epsilon first last start ((c, first) :: rows) where
  le := h.le
  bounds := List.forall_mem_cons.mpr ⟨⟨Nat.le_refl _, h.le⟩, h.bounds⟩
  ordered := List.pairwise_cons.mpr ⟨fun p hp ↦ (h.bounds p hp).1, h.ordered⟩
  least := List.forall_mem_cons.mpr ⟨hleast, h.least⟩
  near := List.forall_mem_cons.mpr ⟨hnear, h.near⟩
  attained := fun i hlt hle ↦ List.mem_cons_of_mem _ (h.attained i hlt hle)
  far := h.far

/-- A centre that is far from the start of the open row opens the next one. -/
theorem Cut.next (h : Cut epsilon (first + 1) last start rows) (hself : ¬epsilon < c - c)
    (hirrefl : ¬c < c) (hstart : start (first + 1) = c) (hfar : epsilon < c - origin) :
    Cut epsilon first last (Function.update start first origin) ((c, first + 1) :: rows) := by
  have hopen : Function.update start first origin first = origin := Function.update_self ..
  have hlater : ∀ i, first < i → Function.update start first origin i = start i := fun i hi ↦
    Function.update_of_ne hi.ne' ..
  have hrest : ∀ p ∈ rows, Function.update start first origin p.2 = start p.2 := fun p hp ↦
    hlater p.2 (h.bounds p hp).1
  have hhead : Function.update start first origin (first + 1) = c :=
    (hlater _ (Nat.lt_succ_self first)).trans hstart
  refine ⟨Nat.le_of_succ_le h.le, ?_, ?_, ?_, ?_, ?_, ?_⟩
  · refine List.forall_mem_cons.mpr ⟨⟨Nat.le_succ first, h.le⟩, fun p hp ↦ ?_⟩
    exact ⟨Nat.le_of_succ_le (h.bounds p hp).1, (h.bounds p hp).2⟩
  · exact List.pairwise_cons.mpr ⟨fun p hp ↦ (h.bounds p hp).1, h.ordered⟩
  · refine List.forall_mem_cons.mpr ⟨by rwa [hhead], fun p hp ↦ ?_⟩
    rw [hrest p hp]
    exact h.least p hp
  · refine List.forall_mem_cons.mpr ⟨by rwa [hhead], fun p hp ↦ ?_⟩
    rw [hrest p hp]
    exact h.near p hp
  · intro i hlt hle
    rw [hlater i hlt]
    rcases Nat.lt_or_eq_of_le (Nat.succ_le_of_lt hlt) with hlt | rfl
    · exact List.mem_cons_of_mem _ (h.attained i hlt hle)
    · rw [hstart]
      exact List.mem_cons_self
  · intro i hle hlt
    rcases Nat.lt_or_eq_of_le hle with hle | rfl
    · rw [hlater i hle, hlater (i + 1) (Nat.lt_succ_of_lt hle)]
      exact h.far i hle hlt
    · rwa [hhead, hopen]

theorem Cut.row_le (h : Cut epsilon first last start rows)
    (hdescends : Descends (rows.map Prod.fst)) {p q : Float × Nat} (hp : p ∈ rows) (hq : q ∈ rows)
    (hlt : p.1 < q.1) : p.2 ≤ q.2 := by
  have hbefore := List.pairwise_iff_getElem.mp (List.pairwise_map.mp hdescends.pairwise)
  obtain ⟨i, hi, rfl⟩ := List.mem_iff_getElem.mp hp
  obtain ⟨j, hj, rfl⟩ := List.mem_iff_getElem.mp hq
  rcases Nat.lt_trichotomy i j with hij | rfl | hij
  · exact List.pairwise_iff_getElem.mp h.ordered i j hi hj hij
  · exact Nat.le_refl _
  · exact absurd hlt (hbefore j i hj hi hij)

/-- **A pass over the centres cuts them into rows.** -/
theorem exists_cut (h : Descends centres) (hself : ∀ d, ¬epsilon < d - d) (first : Nat)
    (hleast : ∀ d ∈ centres, ¬d < origin) :
    ∃ last start, start first = origin ∧
      Cut epsilon first last start (rowsOfCentres epsilon first origin centres) := by
  induction centres generalizing first origin with
  | nil => exact ⟨first, fun _ ↦ origin, rfl, cut_nil ..⟩
  | cons c rest ih =>
    rw [rowsOfCentres]
    split
    · rename_i hfar
      have hbelow : ∀ d ∈ rest, ¬d < c := (List.pairwise_cons.mp h.pairwise).1
      obtain ⟨last, start, hstart, hcut⟩ := ih h.tail (first + 1) hbelow
      refine ⟨last, Function.update start first origin, Function.update_self .., ?_⟩
      exact hcut.next (hself c) (not_lt_self (h.plain c List.mem_cons_self).number) hstart hfar
    · rename_i hnear
      obtain ⟨last, start, rfl, hcut⟩ :=
        ih h.tail first fun d hd ↦ hleast d (List.mem_cons_of_mem c hd)
      exact ⟨last, start, rfl, hcut.stay (hleast c List.mem_cons_self) hnear⟩

/-! ## Rows of the nodes of a tree -/

variable {r : Spot} {pairs : List (Float × Spot)} {p : Place}

theorem map_place_perm (hpairs : pairs.Perm (spots.map fun s ↦ (centre s, s))) :
    (pairs.map fun q ↦ q.2.place).Perm (spots.map Spot.place) := by
  simpa [List.map_map, Function.comp_def] using hpairs.map fun q ↦ q.2.place

theorem exists_of_mem_map_place (hpairs : pairs.Perm (spots.map fun s ↦ (centre s, s)))
    (h : (p, c) ∈ pairs.map fun q ↦ (q.2.place, q.1)) :
    ∃ s ∈ spots, s.place = p ∧ centre s = c := by
  obtain ⟨q, hq, heq⟩ := List.mem_map.mp h
  obtain ⟨s, hs, rfl⟩ := List.mem_map.mp (hpairs.mem_iff.mp hq)
  exact ⟨s, hs, Prod.mk.inj heq⟩

/-- In a pass over the nodes of a tree each one goes to the row of its centre. -/
theorem mem_rowsOfCentres_of_mem (epsilon : Float) (first : Nat) (origin : Float) (ht : r.IsTree)
    (hspots : ∀ s ∈ spots, r.Reaches s)
    (hpairs : pairs.Perm (spots.map fun s ↦ (centre s, s))) (hs : s ∈ spots) :
    (centre s, (band epsilon first origin pairs).rowOf s.place) ∈
      rowsOfCentres epsilon first origin (pairs.map Prod.fst) := by
  have hplace := (map_place_perm hpairs).mem_iff.mpr (List.mem_map_of_mem hs)
  obtain ⟨c, hc, hmem⟩ := exists_centre_of_rowOf epsilon first origin hplace
  obtain ⟨t, ht', hsame, rfl⟩ := exists_of_mem_map_place hpairs hc
  obtain rfl := ht.eq_of_place (hspots t ht') (hspots s hs) hsame
  exact hmem

theorem mem_rowsOfCentres_iff (first : Nat) (origin c : Float) (i : Nat) (ht : r.IsTree)
    (hspots : ∀ s ∈ spots, r.Reaches s)
    (hpairs : pairs.Perm (spots.map fun s ↦ (centre s, s))) (h : Descends (pairs.map Prod.fst))
    (hself : ∀ d, ¬epsilon < d - d) :
    (c, i) ∈ rowsOfCentres epsilon first origin (pairs.map Prod.fst) ↔
      ∃ s ∈ spots, centre s = c ∧ (band epsilon first origin pairs).rowOf s.place = i := by
  constructor
  · intro hmem
    obtain ⟨q, hq, rfl⟩ := List.mem_map.mp (mem_of_mem_rowsOfCentres hmem)
    obtain ⟨s, hs, rfl⟩ := List.mem_map.mp (hpairs.mem_iff.mp hq)
    have hrow := mem_rowsOfCentres_of_mem epsilon first origin ht hspots hpairs hs
    exact ⟨s, hs, rfl, eq_of_mem_rowsOfCentres h hself hrow hmem⟩
  · rintro ⟨s, hs, rfl, rfl⟩
    exact mem_rowsOfCentres_of_mem epsilon first origin ht hspots hpairs hs

theorem mem_band_iff (ht : r.IsTree) (hspots : ∀ s ∈ spots, r.Reaches s)
    (hpairs : pairs.Perm (spots.map fun s ↦ (centre s, s))) (h : Descends (pairs.map Prod.fst))
    (hself : ∀ d, ¬epsilon < d - d) :
    (p, i) ∈ band epsilon first origin pairs ↔
      ∃ s ∈ spots, s.place = p ∧ (band epsilon first origin pairs).rowOf p = i := by
  constructor
  · intro hmem
    obtain ⟨c, hc, hrow⟩ := exists_of_mem_band hmem
    obtain ⟨s, hs, rfl, rfl⟩ := exists_of_mem_map_place hpairs hc
    have hrow' := mem_rowsOfCentres_of_mem epsilon first origin ht hspots hpairs hs
    exact ⟨s, hs, rfl, eq_of_mem_rowsOfCentres h hself hrow' hrow⟩
  · rintro ⟨s, hs, rfl, rfl⟩
    refine mem_rowOf ?_
    rw [map_fst_band]
    exact (map_place_perm hpairs).mem_iff.mpr (List.mem_map_of_mem hs)

/-- Where the first row starts at the first centre, every row starts at a centre. -/
theorem Cut.start_mem (h : Cut epsilon 0 last start (rowsOfCentres epsilon 0 c (c :: centres)))
    (hself : ¬epsilon < c - c) (hstart : start 0 = c) (hi : i ≤ last) :
    (start i, i) ∈ rowsOfCentres epsilon 0 c (c :: centres) := by
  rcases Nat.eq_zero_or_pos i with rfl | hpos
  · rw [hstart, rowsOfCentres, if_neg hself]
    exact List.mem_cons_self
  · exact h.attained i hpos hi

theorem Cut.banding {row : Spot → Nat} (h : Cut epsilon 0 last start rows)
    (hepsilon : epsilon ≠ Float.nan) (hfinite : ∀ s ∈ spots, (centre s).isFinite)
    (hdescends : Descends (rows.map Prod.fst))
    (hmem : ∀ c i, (c, i) ∈ rows ↔ ∃ s ∈ spots, centre s = c ∧ row s = i)
    (hstart : ∀ i ≤ last, (start i, i) ∈ rows)
    (hshared : ∀ c i j, (c, i) ∈ rows → (c, j) ∈ rows → i = j) :
    Banding centre epsilon spots row last start := by
  have hrow : ∀ s ∈ spots, (centre s, row s) ∈ rows := fun s hs ↦ (hmem _ _).mpr ⟨s, hs, rfl, rfl⟩
  have hlast : ∀ s ∈ spots, row s ≤ last := fun s hs ↦ (h.bounds _ (hrow s hs)).2
  have hplain : ∀ s ∈ spots, Plain (centre s) := fun s hs ↦
    hdescends.plain _ (List.mem_map_of_mem (hrow s hs))
  have hfinite' : ∀ i ≤ last, (start i).isFinite := by
    intro i hi
    obtain ⟨s, hs, hcentre, -⟩ := (hmem _ _).mp (hstart i hi)
    exact hcentre ▸ hfinite s hs
  refine ⟨fun i ↦ ⟨?_, fun hi ↦ ?_⟩, fun a ha b hb hlt ↦ ?_, fun a ha b hb heq ↦ ?_, fun i hi ↦ ?_,
    fun s hs ↦ ?_, fun s hs ↦ ?_, fun i hi ↦ h.far i (Nat.zero_le i) hi⟩
  · rintro ⟨s, hs, rfl⟩
    exact hlast s hs
  · obtain ⟨s, hs, -, hsi⟩ := (hmem _ _).mp (hstart i hi)
    exact ⟨s, hs, hsi⟩
  · exact h.row_le hdescends (hrow a ha) (hrow b hb) hlt
  · have hsame : centre a = centre b := ((hplain a ha).beq_iff (hplain b hb)).mp heq
    exact hshared _ _ _ (hrow a ha) (hsame ▸ hrow b hb)
  · obtain ⟨s, hs, hcentre, hsi⟩ := (hmem _ _).mp (hstart i hi)
    exact ⟨s, hs, hsi, hcentre⟩
  · have hleast := h.least (centre s, row s) (hrow s hs)
    rwa [le_iff_not_lt (ne_nan_of_isFinite (hfinite' _ (hlast s hs))) (hplain s hs).number]
  · have hnear := h.near (centre s, row s) (hrow s hs)
    rwa [le_iff_not_lt (sub_ne_nan (hfinite s hs) (hfinite' _ (hlast s hs))) hepsilon]

variable {m : RowMeasure}

theorem descends_centres (hfinite : ∀ s ∈ spots, (m.centre s).isFinite) :
    Descends ((sortBy centreLt (spots.map fun s ↦ (m.centre s, s))).map Prod.fst) := by
  refine descends_sortBy fun q hq ↦ ?_
  obtain ⟨s, hs, rfl⟩ := List.mem_map.mp hq
  exact RowMeasure.plain_centre_of_isFinite (hfinite s hs)

private theorem exists_banding (ht : r.IsTree) (hspots : ∀ s ∈ spots, r.Reaches s)
    (hne : spots ≠ [])
    (hm : RowMeasure.ofSpots spots = .ok m) (hfinite : ∀ s ∈ spots, (m.centre s).isFinite) :
    ∃ last start, Banding m.centre m.epsilon spots
      (fun s ↦ (ofPairs m.epsilon (spots.map fun s ↦ (m.centre s, s))).rowOf s.place)
      last start := by
  have hself := (RowMeasure.of_ofSpots hm).1
  have hperm := sortBy_perm centreLt (spots.map fun s ↦ (m.centre s, s))
  have hdescends := descends_centres hfinite
  rw [ofPairs, firstCentre_eq]
  generalize sortBy centreLt (spots.map fun s ↦ (m.centre s, s)) = pairs at *
  have hmem := fun c i ↦ mem_rowsOfCentres_iff 0 ((pairs.map Prod.fst).head?.getD 0) c i ht hspots
    hperm hdescends hself
  obtain ⟨top, rest, hcentres⟩ : ∃ top rest, pairs.map Prod.fst = top :: rest := by
    refine List.exists_cons_of_ne_nil fun hnil ↦ hne ?_
    rw [List.map_eq_nil_iff.mp hnil] at hperm
    exact List.map_eq_nil_iff.mp (List.nil_perm.mp hperm)
  rw [hcentres] at hdescends hmem ⊢
  have hleast : ∀ d ∈ top :: rest, ¬d < top := List.forall_mem_cons.mpr
    ⟨not_lt_self (hdescends.plain top List.mem_cons_self).number,
      (List.pairwise_cons.mp hdescends.pairwise).1⟩
  obtain ⟨last, start, hstart, hcut⟩ := exists_cut hdescends hself 0 hleast
  refine ⟨last, start, hcut.banding (RowMeasure.epsilon_ne_nan hm) hfinite ?_ hmem
    (fun i hi ↦ hcut.start_mem (hself top) hstart hi)
    fun c i j hi hj ↦ eq_of_mem_rowsOfCentres hdescends hself hi hj⟩
  rwa [map_fst_rowsOfCentres]

/-- **Rows are the bands of the centres.** Let some nodes of a tree, in whatever order and however
often they come, have a measure by which all centres are finite. Then each node is given one row,
and nothing else is; the rows are a numbering by rows, and the nodes have no other one. -/
theorem assign_banding (ht : r.IsTree) (hspots : ∀ s ∈ spots, r.Reaches s) (hne : spots ≠ [])
    (hm : RowMeasure.ofSpots spots = .ok m) (hfinite : ∀ s ∈ spots, (m.centre s).isFinite) :
    ∃ rows last start, assign spots = .ok rows ∧
      (∀ p i, (p, i) ∈ rows ↔ ∃ s ∈ spots, s.place = p ∧ rows.rowOf p = i) ∧
      Banding m.centre m.epsilon spots (fun s ↦ rows.rowOf s.place) last start ∧
      ∀ row last' start', Banding m.centre m.epsilon spots row last' start' →
        ∀ s ∈ spots, row s = rows.rowOf s.place := by
  obtain ⟨last, start, hbanding⟩ := exists_banding ht hspots hne hm hfinite
  refine ⟨_, last, start, by rw [assign_eq, hm]; rfl, fun p i ↦ ?_, hbanding, ?_⟩
  · exact mem_band_iff ht hspots (sortBy_perm _ _) (descends_centres hfinite)
      (RowMeasure.of_ofSpots hm).1
  · intro row last' start' h s hs
    exact hbanding.row_unique h (RowMeasure.epsilon_ne_nan hm) hfinite hs

end Rows

/-! ## Three strips -/

/-- A strip at a height. -/
def Node.strip (id : String) (y : Float) : Node :=
  ⟨{ id, kind := .rectangle, x := some 0, y := some y, height := some 100 }, []⟩

/-- A page with three strips, each of which is a little below another one. -/
def Document.strips : Document :=
  .ofRoot ⟨{ id := "0:0", kind := .page },
    [.strip "0:1" 60, .strip "0:2" 0, .strip "0:3" 30]⟩

/-- For instance three strips: the lowest one is near the second, and far from the first, so it is
in a row of its own. -/
theorem Rows.assign_banding_strips :
    Document.strips.root.IsTree ∧
      (∀ s ∈ Document.strips.root.children, Document.strips.root.Reaches s) ∧
      Document.strips.root.children ≠ [] ∧
      ∃ m, RowMeasure.ofSpots Document.strips.root.children = .ok m ∧
        (∀ s ∈ Document.strips.root.children, (m.centre s).isFinite) ∧
        ∃ rows last start, assign Document.strips.root.children = .ok rows ∧
          Document.strips.root.children.map (fun s ↦ rows.rowOf s.place) = [1, 0, 0] ∧
          Banding m.centre m.epsilon Document.strips.root.children
            (fun s ↦ rows.rowOf s.place) last start := by
  have htree : Document.strips.root.IsTree := Document.isTree_of_links_eq rfl
  have hspots : ∀ s ∈ Document.strips.root.children, Document.strips.root.Reaches s := fun s hs ↦
    (Spot.Reaches.refl _).child hs
  have hlength : Document.strips.root.children.length = 2 + 1 := rfl
  have hne : Document.strips.root.children ≠ [] := List.ne_nil_of_length_eq_add_one hlength
  obtain ⟨m, hm, hall⟩ := exists_of_any
    (show ((RowMeasure.ofSpots Document.strips.root.children).toOption.any fun m ↦
      Document.strips.root.children.all fun s ↦ (m.centre s).isFinite) = true by decide +kernel)
  have hfinite := List.all_eq_true.mp hall
  obtain ⟨rows, last, start, hrows, -, hbanding, -⟩ := assign_banding htree hspots hne hm hfinite
  have hnumbers : (assign Document.strips.root.children).toOption.map (fun rows ↦
      Document.strips.root.children.map fun s ↦ rows.rowOf s.place) = some [1, 0, 0] := by
    decide +kernel
  rw [hrows] at hnumbers
  exact ⟨htree, hspots, hne, m, hm, hfinite, rows, last, start, hrows, Option.some.inj hnumbers,
    hbanding⟩

end SceneSearch
