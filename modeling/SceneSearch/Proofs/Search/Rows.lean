import SceneSearch.Proofs.Number.Level
import SceneSearch.Proofs.Search.ReadingOrder

/-!
# Rows and their order

Rows are cut while the centres of nodes are gone through from top to bottom, and nodes with equal
centres come in the order of the document. Yet the row of a node only depends on which centres there
are: as centres ascend, a row is opened by the first of several equal ones or by none of them, so
equal centres share a row (`eq_of_mem_rowsOfCentres`), and the ascending list of the centres is the
same in whatever order the nodes come. The centres themselves depend on the order through the sum of
the heights alone, which is exact for whole numbers.

Where rows and left edges tell the nodes of a list apart, they are all that nodes are compared by.
Then the reading order depends neither on the order in which the nodes come nor on the way up from
them, and the same nodes in another state of their document have it too: `sortVisually_eq_map`.
-/

namespace SceneSearch

open VisualOrder hiding compare

/-! ## Rows of centres -/

namespace Rows

/-- The rows of centres in the order in which they are given. -/
def rowsOfCentres (epsilon : Float) (row : Nat) (start : Float) : List Float → List (Float × Nat)
  | [] => []
  | centre :: rest =>
    if epsilon < centre - start then
      (centre, row + 1) :: rowsOfCentres epsilon (row + 1) centre rest
    else (centre, row) :: rowsOfCentres epsilon row start rest

variable {epsilon start c : Float} {row i j : Nat} {centres : List Float}
  {pairs others : List (Float × Spot)} {p : Place}

/-- A centre goes to the row that is open, or opens the next one; it is near the start of either. -/
theorem exists_rowsOfCentres_cons (hself : ¬epsilon < c - c) (row : Nat) (start : Float)
    (rest : List Float) :
    ∃ row' start', rowsOfCentres epsilon row start (c :: rest) =
      (c, row') :: rowsOfCentres epsilon row' start' rest ∧ ¬epsilon < c - start' := by
  rw [rowsOfCentres]
  split
  · exact ⟨row + 1, c, rfl, hself⟩
  · exact ⟨row, start, rfl, ‹_›⟩

theorem map_fst_rowsOfCentres :
    (rowsOfCentres epsilon row start centres).map Prod.fst = centres := by
  induction centres generalizing row start with
  | nil => rfl
  | cons d rest ih =>
    rw [rowsOfCentres]
    split
    · rw [List.map_cons, ih]
    · rw [List.map_cons, ih]

theorem mem_of_mem_rowsOfCentres (h : (c, i) ∈ rowsOfCentres epsilon row start centres) :
    c ∈ centres := by
  have hmem := List.mem_map_of_mem (f := Prod.fst) h
  rwa [map_fst_rowsOfCentres] at hmem

/-- None of the centres is above one before it. -/
structure Descends (centres : List Float) : Prop where
  /-- The centres are plain. -/
  plain : ∀ d ∈ centres, Plain d
  /-- They are in order. -/
  pairwise : centres.Pairwise fun a b ↦ ¬b < a

theorem Descends.tail {d : Float} (h : Descends (d :: centres)) : Descends centres :=
  ⟨fun b hb ↦ h.plain b (List.mem_cons_of_mem d hb), (List.pairwise_cons.mp h.pairwise).2⟩

private theorem eq_row_of_mem (h : Descends centres) (hc : Plain c) (hleast : ∀ d ∈ centres, ¬d < c)
    (hstart : ¬epsilon < c - start) (hmem : (c, j) ∈ rowsOfCentres epsilon row start centres) :
    j = row := by
  induction centres with
  | nil => cases hmem
  | cons d rest ih =>
    -- what comes before a centre is not above it, and the first of all is not below it
    obtain rfl : d = c := by
      rcases List.mem_cons.mp (mem_of_mem_rowsOfCentres hmem) with rfl | hrest
      · rfl
      · exact (h.plain d List.mem_cons_self).eq_of_not_lt hc (hleast d List.mem_cons_self)
          ((List.pairwise_cons.mp h.pairwise).1 c hrest)
    rw [rowsOfCentres, if_neg hstart] at hmem
    rcases List.mem_cons.mp hmem with hmem | hmem
    · exact (Prod.mk.inj hmem).2
    · exact ih h.tail (fun b hb ↦ hleast b (List.mem_cons_of_mem d hb)) hmem

/-- **Equal centres share a row.** -/
theorem eq_of_mem_rowsOfCentres (h : Descends centres) (hself : ∀ d, ¬epsilon < d - d)
    (hi : (c, i) ∈ rowsOfCentres epsilon row start centres)
    (hj : (c, j) ∈ rowsOfCentres epsilon row start centres) : i = j := by
  induction centres generalizing row start with
  | nil => cases hi
  | cons d rest ih =>
    have hd : Plain d := h.plain d List.mem_cons_self
    have hleast : ∀ b ∈ rest, ¬b < d := (List.pairwise_cons.mp h.pairwise).1
    obtain ⟨row', start', hcons, hnear⟩ := exists_rowsOfCentres_cons (hself d) row start rest
    rw [hcons] at hi hj
    rcases List.mem_cons.mp hi with hhead | hrest <;>
      rcases List.mem_cons.mp hj with hhead' | hrest'
    · rw [(Prod.mk.inj hhead).2, (Prod.mk.inj hhead').2]
    · obtain ⟨rfl, rfl⟩ := Prod.mk.inj hhead
      exact (eq_row_of_mem h.tail hd hleast hnear hrest').symm
    · obtain ⟨rfl, rfl⟩ := Prod.mk.inj hhead'
      exact eq_row_of_mem h.tail hd hleast hnear hrest
    · exact ih h.tail hrest hrest'

/-! ## Rows of nodes -/

theorem exists_band_cons (epsilon : Float) (row : Nat) (start : Float) (q : Float × Spot) :
    ∃ row' start', (∀ rest, band epsilon row start (q :: rest) =
        (q.2.place, row') :: band epsilon row' start' rest) ∧
      ∀ rest, rowsOfCentres epsilon row start (q.1 :: rest) =
        (q.1, row') :: rowsOfCentres epsilon row' start' rest := by
  simp only [band, rowsOfCentres]
  by_cases hfar : epsilon < q.1 - start
  · simp only [if_pos hfar]
    exact ⟨row + 1, q.1, fun _ ↦ rfl, fun _ ↦ rfl⟩
  · simp only [if_neg hfar]
    exact ⟨row, start, fun _ ↦ rfl, fun _ ↦ rfl⟩

theorem exists_of_mem_band (h : (p, i) ∈ band epsilon row start pairs) :
    ∃ c, (p, c) ∈ pairs.map (fun q ↦ (q.2.place, q.1)) ∧
      (c, i) ∈ rowsOfCentres epsilon row start (pairs.map Prod.fst) := by
  induction pairs generalizing row start with
  | nil => cases h
  | cons q rest ih =>
    obtain ⟨row', start', hband, hrows⟩ := exists_band_cons epsilon row start q
    rw [hband] at h
    rw [List.map_cons, List.map_cons, hrows]
    rcases List.mem_cons.mp h with h | h
    · obtain ⟨rfl, rfl⟩ := Prod.mk.inj h
      exact ⟨q.1, List.mem_cons_self, List.mem_cons_self⟩
    · obtain ⟨c, hplace, hrow⟩ := ih h
      exact ⟨c, List.mem_cons_of_mem _ hplace, List.mem_cons_of_mem _ hrow⟩

theorem map_fst_band :
    (band epsilon row start pairs).map Prod.fst = pairs.map fun q ↦ q.2.place := by
  induction pairs generalizing row start with
  | nil => rfl
  | cons q rest ih =>
    obtain ⟨row', start', hband, -⟩ := exists_band_cons epsilon row start q
    rw [hband, List.map_cons, ih, List.map_cons]

/-- A place that is given a row has one of those that it is given. -/
theorem mem_rowOf {rows : Rows} (h : p ∈ rows.map Prod.fst) : (p, rows.rowOf p) ∈ rows := by
  have hne : rows.filter (fun r ↦ r.1 == p) ≠ [] := by
    obtain ⟨r, hr, rfl⟩ := List.mem_map.mp h
    exact List.ne_nil_of_mem (List.mem_filter.mpr ⟨hr, beq_self_eq_true _⟩)
  obtain ⟨last, hlast⟩ := List.getLast?_isSome.mpr hne |> Option.isSome_iff_exists.mp
  obtain ⟨hmem, hplace⟩ := List.mem_filter.mp (List.mem_of_getLast? hlast)
  obtain rfl := beq_iff_eq.mp hplace
  rw [rowOf, hlast]
  exact hmem

theorem exists_centre_of_rowOf (epsilon : Float) (row : Nat) (start : Float)
    (h : p ∈ pairs.map fun q ↦ q.2.place) :
    ∃ c, (p, c) ∈ pairs.map (fun q ↦ (q.2.place, q.1)) ∧
      (c, (band epsilon row start pairs).rowOf p) ∈
        rowsOfCentres epsilon row start (pairs.map Prod.fst) := by
  rw [← map_fst_band] at h
  exact exists_of_mem_band (mem_rowOf h)

/-! ## The order of centres -/

private theorem addressLt_eq (p q : List Nat) :
    addressLt p q =
      (compare (p.map fun i : Nat ↦ (i : Int)) (q.map fun i : Nat ↦ (i : Int)) == .lt) := by
  fun_induction addressLt p q with
  | case1 => rfl
  | case2 => rfl
  | case3 => rfl
  | case4 p i q ih =>
    rw [ih, List.map_cons, List.map_cons, List.compare_cons_cons, Std.ReflOrd.compare_self]
    rfl
  | case5 i p j q hne =>
    have hne' : compare i j ≠ .eq := fun h ↦ hne (compare_eq_iff_eq.mp h)
    rw [List.map_cons, List.map_cons, List.compare_cons_cons, compare_natCast,
      then_of_ne_eq hne', Bool.eq_iff_iff, decide_eq_true_iff, beq_iff_eq, compare_lt_iff_lt]

/-- Nodes are put in the order of the levels of their centres, and of their addresses. -/
theorem orders_centreLt : Sorting.Orders centreLt fun q ↦ Plain q.1 := by
  refine Sorting.orders_of_key
    (fun q ↦ level q.1 ++ q.2.address.map fun i : Nat ↦ (i : Int)) fun {a b} ha hb ↦ ?_
  rw [compare_append (by rw [length_level, length_level]), centreLt]
  by_cases heq : a.1 = b.1
  · rw [if_pos ((ha.beq_iff hb).mpr heq), heq, Std.ReflOrd.compare_self, addressLt_eq]
    rfl
  · have hne : compare (level a.1) (level b.1) ≠ .eq := fun h ↦
      heq (ha.level_inj hb (Std.LawfulEqOrd.eq_of_compare h))
    rw [if_neg fun h ↦ heq ((ha.beq_iff hb).mp h), then_of_ne_eq hne, Bool.eq_iff_iff,
      decide_eq_true_iff, beq_iff_eq]
    exact lt_iff_level ha.number hb.number

theorem descends_sortBy (h : ∀ q ∈ pairs, Plain q.1) :
    Descends ((sortBy centreLt pairs).map Prod.fst) := by
  have hsorted := ascending_sortBy orders_centreLt h
  constructor
  · intro c hc
    obtain ⟨q, hq, rfl⟩ := List.mem_map.mp hc
    exact hsorted.fit q hq
  · rw [List.pairwise_map]
    refine hsorted.pairwise.imp_of_mem fun {a b} ha hb hnot hlt ↦ ?_
    have hne : ¬(b.1 == a.1) = true := by
      intro heq
      rw [((hsorted.fit b hb).beq_iff (hsorted.fit a ha)).mp heq] at hlt
      exact not_lt_self (hsorted.fit a ha).number hlt
    rw [centreLt, if_neg hne, decide_eq_false_iff_not] at hnot
    exact hnot hlt

private theorem map_fst_sortBy_eq (h : ∀ q ∈ pairs, Plain q.1)
    (hperm : (others.map Prod.fst).Perm (pairs.map Prod.fst)) :
    (sortBy centreLt others).map Prod.fst = (sortBy centreLt pairs).map Prod.fst := by
  have hothers : ∀ q ∈ others, Plain q.1 := by
    intro q hq
    obtain ⟨q', hq', heq⟩ := List.mem_map.mp (hperm.subset (List.mem_map_of_mem hq))
    exact heq ▸ h q' hq'
  have hdescends := descends_sortBy h
  have hdescends' := descends_sortBy hothers
  have hboth := ((sortBy_perm centreLt others).map Prod.fst).trans
    (hperm.trans ((sortBy_perm centreLt pairs).map Prod.fst).symm)
  refine hboth.eq_of_pairwise (fun a b ha hb hab hba ↦ ?_) hdescends'.pairwise hdescends.pairwise
  exact (hdescends'.plain a ha).eq_of_not_lt (hdescends.plain b hb) hba hab

/-- The centre that the first row starts at. -/
def firstCentre (pairs : List (Float × Spot)) : Float := (pairs.head?.map Prod.fst).getD 0

/-- The rows of some nodes with their centres. -/
def ofPairs (epsilon : Float) (pairs : List (Float × Spot)) : Rows :=
  band epsilon 0 (firstCentre (sortBy centreLt pairs)) (sortBy centreLt pairs)

theorem firstCentre_eq (pairs : List (Float × Spot)) :
    firstCentre pairs = ((pairs.map Prod.fst).head?).getD 0 := by
  rw [firstCentre, List.head?_map]

/-- **The row of a node only depends on which centres there are.** -/
theorem rowOf_ofPairs_eq (hself : ∀ d, ¬epsilon < d - d) (h : ∀ q ∈ pairs, Plain q.1)
    (hnodup : (pairs.map fun q ↦ q.2.place).Nodup)
    (hperm : (others.map fun q ↦ (q.2.place, q.1)).Perm (pairs.map fun q ↦ (q.2.place, q.1)))
    (hp : p ∈ pairs.map fun q ↦ q.2.place) :
    (ofPairs epsilon others).rowOf p = (ofPairs epsilon pairs).rowOf p := by
  have hcentres : (others.map Prod.fst).Perm (pairs.map Prod.fst) := by
    simpa [List.map_map, Function.comp_def] using hperm.map Prod.snd
  have hplaces : (others.map fun q ↦ q.2.place).Perm (pairs.map fun q ↦ q.2.place) := by
    simpa [List.map_map, Function.comp_def] using hperm.map Prod.fst
  have hsame := map_fst_sortBy_eq h hcentres
  have hsorted := sortBy_perm centreLt pairs
  have hsorted' := sortBy_perm centreLt others
  rw [ofPairs, ofPairs, firstCentre_eq, firstCentre_eq, hsame]
  generalize ((sortBy centreLt pairs).map Prod.fst).head?.getD 0 = start
  obtain ⟨c, hc, hrow⟩ := exists_centre_of_rowOf epsilon 0 start ((hsorted.map _).mem_iff.mpr hp)
  obtain ⟨c', hc', hrow'⟩ := exists_centre_of_rowOf epsilon 0 start
    ((hsorted'.map _).mem_iff.mpr (hplaces.mem_iff.mpr hp))
  -- a place has one centre
  have hc : (p, c) ∈ pairs.map fun q ↦ (q.2.place, q.1) := (hsorted.map _).mem_iff.mp hc
  have hc' : (p, c') ∈ pairs.map fun q ↦ (q.2.place, q.1) :=
    hperm.mem_iff.mp ((hsorted'.map _).mem_iff.mp hc')
  obtain ⟨q, hq, heq⟩ := List.mem_map.mp hc
  obtain ⟨q', hq', heq'⟩ := List.mem_map.mp hc'
  obtain ⟨hplace, rfl⟩ := Prod.mk.inj heq
  obtain ⟨hplace', rfl⟩ := Prod.mk.inj heq'
  obtain rfl : q = q' := List.inj_on_of_nodup_map hnodup hq hq' (hplace.trans hplace'.symm)
  rw [hsame] at hrow'
  exact eq_of_mem_rowsOfCentres (descends_sortBy h) hself hrow' hrow

/-! ## Rows of a list -/

theorem assign_eq (spots : List Spot) :
    assign spots = (RowMeasure.ofSpots spots).map fun m ↦
      ofPairs m.epsilon (spots.map fun s ↦ (m.centre s, s)) := by
  cases spots with
  | nil =>
    have hok : (RowMeasure.ofSpots []).isOk = true := by decide +kernel
    cases hm : RowMeasure.ofSpots [] with
    | error fault =>
      rw [hm] at hok
      cases hok
    | ok m =>
      have hnone : ofPairs m.epsilon [] = [] := by
        rw [ofPairs, List.perm_nil.mp (sortBy_perm centreLt [])]
        rfl
      exact congrArg Except.ok hnone.symm
  | cons s rest =>
    rw [assign, if_neg (by simp)]
    cases RowMeasure.ofSpots (s :: rest) with
    | error fault => rfl
    | ok m =>
      rw [Except.map, ofPairs]
      dsimp only [bind, Except.bind]
      cases sortBy centreLt ((s :: rest).map fun s ↦ (m.centre s, s)) <;> rfl

end Rows

/-! ## Measures -/

namespace RowMeasure

variable {m : RowMeasure} {spots others : List Spot} {s : Spot}

/-- The height of a node; an unknown one counts as zero. -/
def knownHeight (s : Spot) : Float := orElseFloat (s.layer.height.getD 0) 0

/-- The average of some heights. -/
def averageOf (heights : List Float) : Float :=
  if heights.isEmpty then 0 else heights.foldl (· + ·) 0 / Float.ofNat heights.length

/-- The measure that an average gives. -/
def ofAverage (average : Float) : Except FloorFault RowMeasure :=
  (floorOf (rowEpsilonFactor * orElseFloat average defaultNodeHeight + 0.5)).map fun rounded ↦
    ⟨average, Float.ofInt (max rowEpsilonMin rounded)⟩

theorem ofSpots_eq (spots : List Spot) :
    ofSpots spots = ofAverage (averageOf (spots.map knownHeight)) := by
  rw [ofAverage]
  change (floorOf (rowEpsilonFactor *
    orElseFloat (averageOf (spots.map knownHeight)) defaultNodeHeight + 0.5)) >>= _ = _
  cases floorOf (rowEpsilonFactor *
    orElseFloat (averageOf (spots.map knownHeight)) defaultNodeHeight + 0.5) <;> rfl

/-- The distance of a measure is a positive whole number, and the average is a number. -/
theorem exists_epsilon_of_ofSpots (h : ofSpots spots = .ok m) :
    ∃ n : Nat, 0 < n ∧ m.epsilon = Float.ofNat n ∧
      orElseFloat m.average defaultNodeHeight ≠ Float.nan := by
  rw [ofSpots_eq] at h
  generalize averageOf (spots.map knownHeight) = average at h
  rw [ofAverage] at h
  cases hfloor : floorOf (rowEpsilonFactor * orElseFloat average defaultNodeHeight + 0.5) with
  | error fault =>
    rw [hfloor] at h
    cases h
  | ok rounded =>
    rw [hfloor] at h
    obtain rfl := Except.ok.inj h
    obtain ⟨n, hn⟩ : ∃ n : Nat, max 8 rounded = n := ⟨(max 8 rounded).toNat, by omega⟩
    refine ⟨n, by omega, congrArg Float.ofInt hn, fun hnan ↦ ?_⟩
    dsimp only at hnan
    rw [hnan, mul_nan, nan_add, floorOf_nan] at hfloor
    cases hfloor

theorem of_ofSpots (h : ofSpots spots = .ok m) :
    (∀ d, ¬m.epsilon < d - d) ∧ orElseFloat m.average defaultNodeHeight ≠ Float.nan := by
  obtain ⟨n, hn, hepsilon, haverage⟩ := exists_epsilon_of_ofSpots h
  rw [hepsilon]
  exact ⟨fun d ↦ not_ofNat_lt_sub_self hn d, haverage⟩

theorem epsilon_ne_nan (h : ofSpots spots = .ok m) : m.epsilon ≠ Float.nan := by
  obtain ⟨n, hn, hepsilon, -⟩ := exists_epsilon_of_ofSpots h
  intro hnan
  have hside := side?_ofNat hn
  rw [← hepsilon, hnan, unpack_nan] at hside
  cases hside

private theorem orElseFloat_ne_nan {x fallback : Float} (hx : x ≠ Float.nan)
    (h : fallback ≠ Float.nan) :
    orElseFloat x fallback ≠ Float.nan := by
  rw [orElseFloat]
  split
  · exact h
  · exact hx

/-- The centre of a node is plain if its upper edge is finite and its height is a number. -/
theorem plain_centre (hm : orElseFloat m.average defaultNodeHeight ≠ Float.nan) (hs : s.Measured)
    (hheight : ∀ h ∈ s.layer.height, h ≠ Float.nan) : Plain (m.centre s) := by
  rw [centre]
  refine plain_add hs.isFinite_top (orElseFloat_zero_ne_negZero _) (div_two_ne_nan ?_)
  refine orElseFloat_ne_nan ?_ hm
  cases hknown : s.layer.height with
  | none => decide
  | some h => exact hheight h (by rw [hknown]; rfl)

theorem plain_centre_of_isFinite (h : (m.centre s).isFinite) : Plain (m.centre s) := by
  obtain ⟨htop, hheight⟩ := isFinite_of_add h
  exact plain_add htop (orElseFloat_zero_ne_negZero _) hheight

private theorem averageOf_eq_of_perm {heights : List Float} {ns : List Int}
    (hsmall : (ns.map Int.natAbs).sum < 2 ^ 53) (hperm : heights.Perm (ns.map Float.ofInt)) :
    averageOf heights = averageOf (ns.map Float.ofInt) := by
  obtain ⟨ns', hns', rfl⟩ := exists_perm_map hperm
  have hsmall' : (ns'.map Int.natAbs).sum < 2 ^ 53 := by
    rwa [(hns'.map Int.natAbs).sum_eq]
  have hsum : ∀ ns : List Int, (ns.map Int.natAbs).sum < 2 ^ 53 →
      (ns.map Float.ofInt).foldl (· + ·) 0 = Float.ofInt ns.sum := by
    intro ns h
    have hfold : (ns.map Float.ofInt).foldl (· + ·) (Float.ofInt 0) = Float.ofInt (0 + ns.sum) :=
      foldl_ofInt (by rwa [Int.natAbs_zero, Nat.zero_add])
    rwa [Int.zero_add] at hfold
  rw [averageOf, averageOf, hperm.length_eq, hsum ns hsmall, hsum ns' hsmall', hns'.sum_eq,
    List.isEmpty_map, List.isEmpty_map, hns'.isEmpty_eq]

end RowMeasure

/-! ## Nodes that rows and left edges tell apart -/

namespace Rows

/-- The geometry of nodes is known, and they are told apart by their rows and their left edges. -/
structure Decisive (spots : List Spot) : Prop where
  /-- The position of each node is known, and it is finite. -/
  placed : ∀ s ∈ spots, s.layer.hasGeometry = true ∧ s.Measured
  /-- Known heights are whole numbers, and their absolute values have a small sum. -/
  whole : ∃ whole : Spot → Int,
    (∀ s ∈ spots, ∀ h ∈ s.layer.height, (h == Float.ofInt (whole s)) = true) ∧
      (spots.map fun s ↦ (whole s).natAbs).sum < 2 ^ 53
  /-- No two nodes share both their row and their left edge. -/
  apart : ∀ rows, assign spots = .ok rows → ∀ a ∈ spots, ∀ b ∈ spots, a.place ≠ b.place →
    ¬(rows.rowOf a.place = rows.rowOf b.place ∧ (a.layer.x == b.layer.x) = true)

/-- Whether rows and left edges tell nodes apart whose known heights are the given numbers. -/
def isDecisive (whole : Spot → Int) (spots : List Spot) : Bool :=
  (spots.all fun s ↦ s.layer.hasGeometry && s.layer.x.all Float.isFinite &&
    s.layer.y.all Float.isFinite && s.layer.height.all (· == Float.ofInt (whole s))) &&
  decide ((spots.map fun s ↦ (whole s).natAbs).sum < 2 ^ 53) &&
  (assign spots).toOption.all fun rows ↦ spots.all fun a ↦ spots.all fun b ↦
    a.same b || !(rows.rowOf a.place == rows.rowOf b.place && a.layer.x == b.layer.x)

variable {spots others : List Spot} {f : Spot → Spot}

theorem decisive_of_isDecisive {whole : Spot → Int} (h : isDecisive whole spots = true) :
    Decisive spots := by
  simp only [isDecisive, Bool.and_eq_true, List.all_eq_true, decide_eq_true_eq] at h
  obtain ⟨⟨hspots, hsum⟩, hrows⟩ := h
  refine ⟨fun s hs ↦ ?_, ⟨whole, fun s hs height hheight ↦ ?_, hsum⟩, ?_⟩
  · obtain ⟨⟨⟨hgeometry, hx⟩, hy⟩, -⟩ := hspots s hs
    exact ⟨hgeometry, fun v hv ↦ (Option.all_eq_true ..).mp hx v hv,
      fun v hv ↦ (Option.all_eq_true ..).mp hy v hv⟩
  · exact (Option.all_eq_true ..).mp (hspots s hs).2 height hheight
  · rintro rows hassign a ha b hb hne ⟨hrow, hleft⟩
    rw [hassign] at hrows
    have hpair := List.all_eq_true.mp (List.all_eq_true.mp hrows a ha) b hb
    simp [Spot.same, hne, hrow, hleft] at hpair

theorem Decisive.exists_whole (h : Decisive spots) :
    ∃ whole : Spot → Int, (∀ s ∈ spots, RowMeasure.knownHeight s = Float.ofInt (whole s)) ∧
      (spots.map fun s ↦ (whole s).natAbs).sum < 2 ^ 53 := by
  obtain ⟨whole, hwhole, hsum⟩ := h.whole
  -- what the number of an unknown height is does not matter
  refine ⟨fun s ↦ if s.layer.height.isSome then whole s else 0, fun s hs ↦ ?_,
    Nat.lt_of_le_of_lt (List.sum_le_sum fun s hs ↦ ?_) hsum⟩
  · dsimp only
    rw [RowMeasure.knownHeight]
    cases hknown : s.layer.height with
    | none => rfl
    | some height =>
      have hle : (whole s).natAbs ≤ (spots.map fun s ↦ (whole s).natAbs).sum :=
        List.single_le_sum (fun _ _ ↦ Nat.zero_le _) _ (List.mem_map_of_mem hs)
      exact orElseFloat_zero_eq_ofInt (Nat.lt_of_le_of_lt hle hsum)
        (hwhole s hs height (by rw [hknown]; rfl))
  · dsimp only
    split
    · exact Nat.le_refl _
    · exact Nat.zero_le _

theorem Decisive.ofSpots_eq (h : Decisive spots) (hlayer : ∀ s, (f s).layer = s.layer)
    (hperm : others.Perm (spots.map f)) : RowMeasure.ofSpots others = RowMeasure.ofSpots spots := by
  obtain ⟨whole, hwhole, hsum⟩ := h.exists_whole
  have hheights : spots.map RowMeasure.knownHeight = (spots.map whole).map Float.ofInt := by
    rw [List.map_map]
    exact List.map_congr_left hwhole
  have hkept : (spots.map f).map RowMeasure.knownHeight = spots.map RowMeasure.knownHeight := by
    rw [List.map_map]
    exact List.map_congr_left fun s _ ↦ by
      rw [Function.comp_apply, RowMeasure.knownHeight, hlayer, RowMeasure.knownHeight]
  have hothers := hperm.map RowMeasure.knownHeight
  rw [hkept, hheights] at hothers
  rw [RowMeasure.ofSpots_eq, RowMeasure.ofSpots_eq, hheights]
  refine congrArg _ (RowMeasure.averageOf_eq_of_perm ?_ hothers)
  rwa [List.map_map]

/-- **The same nodes have the same rows**, in whatever order they come. -/
theorem Decisive.exists_assign (h : Decisive spots) (hnodup : (spots.map Spot.place).Nodup)
    (hplace : ∀ s, (f s).place = s.place) (hlayer : ∀ s, (f s).layer = s.layer)
    (hperm : others.Perm (spots.map f)) {rows : Rows} (hrows : assign spots = .ok rows) :
    ∃ rows', assign others = .ok rows' ∧ ∀ s ∈ spots, rows'.rowOf s.place = rows.rowOf s.place := by
  rw [assign_eq] at hrows
  cases hm : RowMeasure.ofSpots spots with
  | error fault =>
    rw [hm] at hrows
    cases hrows
  | ok m =>
    rw [hm] at hrows
    obtain rfl := Except.ok.inj hrows
    obtain ⟨hself, haverage⟩ := RowMeasure.of_ofSpots hm
    rw [assign_eq, h.ofSpots_eq hlayer hperm, hm]
    refine ⟨_, rfl, fun s hs ↦ ?_⟩
    obtain ⟨whole, hwhole, -⟩ := h.whole
    refine rowOf_ofPairs_eq hself ?_ ?_ ?_ ?_
    · intro q hq
      obtain ⟨s, hs, rfl⟩ := List.mem_map.mp hq
      refine RowMeasure.plain_centre haverage (h.placed s hs).2 fun height hheight ↦ ?_
      exact (Float.beq_iff_ne_nan_and_eq.mp (hwhole s hs height hheight)).1
    · rwa [List.map_map]
    · have hcentre : ∀ s, m.centre (f s) = m.centre s := fun s ↦ by
        rw [RowMeasure.centre, hlayer, RowMeasure.centre]
      have hkept : (spots.map f).map (fun s ↦ (s.place, m.centre s)) =
          spots.map fun s ↦ (s.place, m.centre s) := by
        rw [List.map_map]
        exact List.map_congr_left fun s _ ↦ by rw [Function.comp_apply, hplace, hcentre]
      have hothers := hperm.map fun s ↦ (s.place, m.centre s)
      rw [hkept] at hothers
      rw [List.map_map, List.map_map]
      exact hothers
    · rw [List.map_map]
      exact List.mem_map_of_mem hs

/-! ## Reading order by rows -/

/-- What nodes are compared by, as far as it goes. -/
def rank (rows : Rows) (s : Spot) : List Int := [(rows.rowOf s.place : Int), units (left s)]

/-- The order of a list whose nodes are cut into rows. -/
def order (rows : Rows) : VisualOrder := ⟨.rows, none, rows⟩

theorem compare_order {rows : Rows} {a b : Spot} (ha : a.Measured) (hb : b.Measured)
    (h : a.same b = true ↔ rank rows a = rank rows b) :
    (order rows).compare a b = compare (rank rows a) (rank rows b) := by
  rw [VisualOrder.compare]
  by_cases hsame : a.same b = true
  · rw [if_pos hsame, h.mp hsame, Std.ReflOrd.compare_self]
  · have hdecided : compare (rank rows a) (rank rows b) ≠ .eq := fun heq ↦
      hsame (h.mpr (Std.LawfulEqOrd.eq_of_compare heq))
    rw [if_neg hsame]
    change (compareRows (fun p ↦ (rows.rowOf p : Int)) a b).then _ = _
    rw [rank, rank, List.compare_cons_cons, List.compare_cons_cons, Std.ReflOrd.compare_self,
      Ordering.then_eq] at hdecided ⊢
    -- paint order and document order have nothing left to decide
    rw [compareRows, byDifference_sub ha.isFinite_left hb.isFinite_left, ← Ordering.then_assoc,
      then_of_ne_eq hdecided, then_of_ne_eq hdecided]

private theorem units_orElseFloat_zero (x : Float) : units (orElseFloat x 0) = units x := by
  rw [orElseFloat]
  split
  · rename_i hnothing
    obtain ⟨-, -, rfl | ⟨rfl, -⟩ | ⟨rfl, -⟩⟩ := Float.beq_iff_ne_nan_and_eq.mp hnothing <;>
      decide
  · rfl

theorem Decisive.same_iff_rank (h : Decisive spots) (hnodup : (spots.map Spot.place).Nodup)
    {rows : Rows} (hrows : assign spots = .ok rows) {a b : Spot} (ha : a ∈ spots) (hb : b ∈ spots) :
    a.same b = true ↔ rank rows a = rank rows b := by
  rw [Spot.same_iff]
  constructor
  · intro hplace
    rw [List.inj_on_of_nodup_map hnodup ha hb hplace]
  · intro hrank
    by_contra hne
    obtain ⟨hrow, hleft⟩ : rows.rowOf a.place = rows.rowOf b.place ∧
        units (left a) = units (left b) := by simpa [rank] using hrank
    refine h.apart rows hrows a ha b hb hne ⟨hrow, ?_⟩
    obtain ⟨hgeometry, hmeasured⟩ := h.placed a ha
    obtain ⟨hgeometry', hmeasured'⟩ := h.placed b hb
    obtain ⟨x, hx⟩ := Option.isSome_iff_exists.mp (Bool.and_eq_true_iff.mp hgeometry).1
    obtain ⟨x', hx'⟩ := Option.isSome_iff_exists.mp (Bool.and_eq_true_iff.mp hgeometry').1
    rw [left, left, hx, hx', Option.getD_some, Option.getD_some, units_orElseFloat_zero,
      units_orElseFloat_zero] at hleft
    rw [hx, hx']
    exact beq_of_units_eq (hmeasured.x x hx) (hmeasured'.x x' hx') hleft

private theorem orders_order {rows : Rows} (hmeasured : ∀ s ∈ spots, s.Measured)
    (h : ∀ a ∈ spots, ∀ b ∈ spots, a.same b = true ↔ rank rows a = rank rows b) :
    Sorting.Orders (fun a b ↦ (order rows).compare a b == .lt) (· ∈ spots) :=
  Sorting.orders_of_key (rank rows) fun {a b} ha hb ↦ by
    rw [compare_order (hmeasured a ha) (hmeasured b hb) (h a ha b hb)]

private theorem pairwise_sort {rows : Rows} (hmeasured : ∀ s ∈ spots, s.Measured)
    (h : ∀ a ∈ spots, ∀ b ∈ spots, a.same b = true ↔ rank rows a = rank rows b) :
    ((order rows).sort spots).Pairwise fun a b ↦ compare (rank rows b) (rank rows a) ≠ .lt := by
  have hsorted := ascending_sortBy (orders_order hmeasured h) fun _ hs ↦ hs
  refine hsorted.pairwise.imp_of_mem fun {a b} ha hb hnot ↦ ?_
  have ha' := hsorted.fit a ha
  have hb' := hsorted.fit b hb
  rwa [compare_order (hmeasured b hb') (hmeasured a ha') (h b hb' a ha'),
    beq_eq_false_iff_ne] at hnot

private theorem sort_eq_map {rows rows' : Rows} (hmeasured : ∀ s ∈ spots, s.Measured)
    (h : ∀ a ∈ spots, ∀ b ∈ spots, a.same b = true ↔ rank rows a = rank rows b)
    (hinj : ∀ a ∈ spots, ∀ b ∈ spots, a.place = b.place → a = b)
    (hplace : ∀ s, (f s).place = s.place) (hlayer : ∀ s, (f s).layer = s.layer)
    (hperm : others.Perm (spots.map f))
    (hrows : ∀ s ∈ spots, rows'.rowOf s.place = rows.rowOf s.place) :
    (order rows').sort others = ((order rows).sort spots).map f := by
  have hrank : ∀ s ∈ spots, rank rows' (f s) = rank rows s := by
    intro s hs
    rw [rank, rank, hplace, hrows s hs, left, left, hlayer]
  have hothers : ∀ t ∈ others, ∃ s ∈ spots, f s = t := fun t ht ↦
    List.mem_map.mp (hperm.subset ht)
  have hsame' : ∀ a ∈ others, ∀ b ∈ others,
      a.same b = true ↔ rank rows' a = rank rows' b := by
    intro a ha b hb
    obtain ⟨s, hs, rfl⟩ := hothers a ha
    obtain ⟨t, ht, rfl⟩ := hothers b hb
    rw [hrank s hs, hrank t ht, ← h s hs t ht, Spot.same_iff, Spot.same_iff, hplace, hplace]
  have hmeasured' : ∀ t ∈ others, t.Measured := by
    intro t ht
    obtain ⟨s, hs, rfl⟩ := hothers t ht
    exact ⟨fun v hv ↦ (hmeasured s hs).x v (hlayer s ▸ hv),
      fun v hv ↦ (hmeasured s hs).y v (hlayer s ▸ hv)⟩
  have hsorted := pairwise_sort hmeasured h
  have hsorted' := pairwise_sort hmeasured' hsame'
  have hsort : ((order rows).sort spots).Perm spots := sortBy_perm _ _
  have hsort' : ((order rows').sort others).Perm others := sortBy_perm _ _
  have hmapped : (((order rows).sort spots).map f).Pairwise fun a b ↦
      compare (rank rows' b) (rank rows' a) ≠ .lt := by
    rw [List.pairwise_map]
    refine hsorted.imp_of_mem fun {a b} ha hb hle ↦ ?_
    rwa [hrank a (hsort.subset ha), hrank b (hsort.subset hb)]
  have hboth := hsort'.trans (hperm.trans (hsort.map f).symm)
  refine hboth.eq_of_pairwise (fun a b ha hb hab hba ↦ ?_) hsorted' hmapped
  obtain ⟨s, hs, rfl⟩ := hothers a (hsort'.subset ha)
  obtain ⟨t, ht, rfl⟩ := List.mem_map.mp hb
  have ht := hsort.subset ht
  rw [hrank s hs, hrank t ht] at hab hba
  have heq : rank rows s = rank rows t := by
    match hcompare : compare (rank rows s) (rank rows t) with
    | .lt => exact absurd hcompare hba
    | .eq => exact Std.LawfulEqOrd.eq_of_compare hcompare
    | .gt => exact absurd (Std.OrientedCmp.lt_of_gt hcompare) hab
  rw [hinj s hs t ht (Spot.same_iff.mp ((h s hs t ht).mpr heq))]

/-- **Where rows and left edges decide, nothing else does**: the same nodes in another state of
their document, in whatever order they come, have the same reading order. -/
theorem Decisive.sortVisually_eq_map (h : Decisive spots) (hnodup : (spots.map Spot.place).Nodup)
    (hplace : ∀ s, (f s).place = s.place) (hlayer : ∀ s, (f s).layer = s.layer)
    (hperm : others.Perm (spots.map f)) :
    sortVisually others = (sortVisually spots).map (List.map f) := by
  have hgeometry : ∀ s ∈ spots, s.layer.hasGeometry = true := fun s hs ↦ (h.placed s hs).1
  have hgeometry' : ∀ t ∈ others, t.layer.hasGeometry = true := by
    intro t ht
    obtain ⟨s, hs, rfl⟩ := List.mem_map.mp (hperm.subset ht)
    rw [hlayer]
    exact hgeometry s hs
  have hchoice : ∀ spots : List Spot, (∀ s ∈ spots, s.layer.hasGeometry = true) →
      sortVisually spots = (assign spots).map fun rows ↦ (order rows).sort spots := by
    intro spots hall
    rw [sortVisually, forCandidates, List.all_eq_true.mpr hall]
    cases assign spots <;> rfl
  rw [hchoice spots hgeometry, hchoice others hgeometry']
  cases hassign : assign spots with
  | error fault =>
    have hothers : assign others = .error fault := by
      rw [assign_eq] at hassign ⊢
      rw [h.ofSpots_eq hlayer hperm]
      cases hm : RowMeasure.ofSpots spots with
      | error fault' =>
        rw [hm] at hassign
        exact hassign
      | ok m =>
        rw [hm] at hassign
        cases hassign
    rw [hothers]
    rfl
  | ok rows =>
    obtain ⟨rows', hrows', heq⟩ := h.exists_assign hnodup hplace hlayer hperm hassign
    rw [hrows']
    refine congrArg Except.ok ?_
    exact sort_eq_map (fun s hs ↦ (h.placed s hs).2)
      (fun a ha b hb ↦ h.same_iff_rank hnodup hassign ha hb)
      (fun a ha b hb ↦ List.inj_on_of_nodup_map hnodup ha hb) hplace hlayer hperm heq

end Rows

end SceneSearch
