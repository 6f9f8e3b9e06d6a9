import SceneSearch.Proofs.Number.Whole

/-!
# The order of doubles

Doubles are compared by sign, exponent and significand, so each has a level, three whole numbers
that are compared one after the other. Only what is no number has no place in this order, and only
the two zeros share one. A sum whose first part is finite, and not the zero below zero, is a number
if the second part is, and not the zero below zero either: `Plain` says so, and plain doubles are
equal exactly if they are compared as equal.
-/

namespace SceneSearch

open Float.Model (Format UnpackedFloat totalExponent)
open Float.Model.UnpackedFloat

variable {x y : Float}

/-! ## Numbers -/

theorem ne_nan_iff : x ≠ Float.nan ↔ x.toModel.unpack ≠ .notANumber := by
  rw [ne_eq, ne_eq, ← isNaN_iff, ← decide_eq_true_iff (p := x = Float.nan),
    ← Float.isNaN_eq_decide_eq_nan]
  rfl

theorem unpack_nan : Float.nan.toModel.unpack = .notANumber := by
  by_contra h
  exact ne_nan_iff.mpr h rfl

theorem unpack_pack_nan : (Float.Model.pack .notANumber).unpack = .notANumber := unpack_packedNaN

private theorem unpack_packComponents_ne_nan {sign : Sign} {e : BitVec 11} {m : BitVec 52}
    (h : e = -1#11 → m = 0#52) :
    UnpackedFloat.unpack Format.binary64 (packComponents Format.binary64 sign e m) ≠
      .notANumber := by
  simp only [UnpackedFloat.unpack, unpackMantissa_packComponents, unpackExponent_packComponents]
  by_cases hlast : e = -1#11
  · rw [if_pos hlast, if_pos (h hlast)]
    nofun
  · rw [if_neg hlast]
    split
    · split <;> nofun
    · nofun

private theorem unpack_pack_ne_nan {u : UnpackedFloat} (hu : u ≠ .notANumber) :
    (Float.Model.pack u).unpack ≠ .notANumber := by
  match u with
  | .notANumber => exact absurd rfl hu
  | .infinity sign => cases sign <;> exact nofun
  | .zero sign =>
    rw [unpack_pack_zero]
    nofun
  | .finite sign m e hm =>
    show UnpackedFloat.unpack _ (UnpackedFloat.pack Format.binary64 _) ≠ _
    rw [pack_finite]
    split
    · exact unpack_packComponents_ne_nan fun _ ↦ rfl
    · rename_i hover
      split
      · refine unpack_packComponents_ne_nan fun h ↦ ?_
        have hlast : (e + 1023 + 52).toNat % 2 ^ 11 = 2047 := congrArg BitVec.toNat h
        rw [Nat.mod_eq_of_lt (by omega)] at hlast
        omega
      · exact unpack_packComponents_ne_nan fun h ↦ absurd h (by decide)

theorem mul_nan (x : Float) : x * Float.nan = Float.nan := by
  refine eq_of_unpack_eq ?_
  have hmul : UnpackedFloat.mul Format.binary64 x.toModel.unpack .notANumber = .notANumber := by
    cases x.toModel.unpack <;> rfl
  show (Float.Model.pack (UnpackedFloat.mul Format.binary64 x.toModel.unpack
    Float.nan.toModel.unpack)).unpack = _
  rw [unpack_nan, hmul, unpack_pack_nan]

theorem nan_add (x : Float) : Float.nan + x = Float.nan := by
  refine eq_of_unpack_eq ?_
  show (Float.Model.pack (UnpackedFloat.add Format.binary64 Float.nan.toModel.unpack
    x.toModel.unpack)).unpack = _
  rw [unpack_nan]
  exact unpack_pack_nan

theorem floorOf_nan : floorOf Float.nan = .error .nan := by
  decide

private theorem roundWithAccuracy_ne_nan (sign : Sign) (m : Nat) (e : Int) (accuracy : Accuracy) :
    roundWithAccuracy Format.binary64 sign m e accuracy ≠ .notANumber := by
  rw [roundWithAccuracy]
  dsimp only
  split <;>
    · intro heq
      cases heq

private theorem unpack_two : ∃ m e h, (2 : Float).toModel.unpack = .finite .positive m e h :=
  ⟨_, _, _, rfl⟩

theorem div_two_ne_nan (hx : x ≠ Float.nan) : x / 2 ≠ Float.nan := by
  obtain ⟨n, d, hn, htwo⟩ := unpack_two
  refine ne_nan_iff.mpr ?_
  show (Float.Model.pack (UnpackedFloat.div Format.binary64 x.toModel.unpack
    (2 : Float).toModel.unpack)).unpack ≠ _
  rw [htwo]
  refine unpack_pack_ne_nan ?_
  match h : x.toModel.unpack with
  | .notANumber => exact absurd h (ne_nan_iff.mp hx)
  | .infinity _ => nofun
  | .zero _ => nofun
  | .finite .. => exact roundWithAccuracy_ne_nan _ _ _ _

/-! ## Levels -/

theorem compare_natCast (m n : Nat) : compare (m : Int) (n : Int) = compare m n := by
  rcases Nat.lt_trichotomy m n with h | rfl | h
  · rw [compare_lt_iff_lt.mpr h, compare_lt_iff_lt.mpr (Int.ofNat_lt.mpr h)]
  · rw [Std.ReflOrd.compare_self, Std.ReflOrd.compare_self]
  · rw [compare_gt_iff_gt.mpr h, compare_gt_iff_gt.mpr (Int.ofNat_lt.mpr h)]

theorem compare_neg (m n : Int) : compare (-m) (-n) = compare n m := by
  rcases Int.lt_trichotomy n m with h | rfl | h
  · rw [compare_lt_iff_lt.mpr h, compare_lt_iff_lt.mpr (Int.neg_lt_neg h)]
  · rw [Std.ReflOrd.compare_self, Std.ReflOrd.compare_self]
  · rw [compare_gt_iff_gt.mpr h, compare_gt_iff_gt.mpr (Int.neg_lt_neg h)]

/-- What a number is compared by. -/
def levelOf : UnpackedFloat → List Int
  | .infinity sign => [sign.apply 2, 0, 0]
  | .finite sign significand exponent _ =>
    [sign.apply 1, sign.apply exponent, sign.apply significand]
  | _ => [0, 0, 0]

/-- What a double is compared by. -/
def level (x : Float) : List Int := levelOf x.toModel.unpack

@[simp] theorem length_level (x : Float) : (level x).length = 3 := by
  rw [level]
  cases x.toModel.unpack <;> rfl

theorem compare_finite (sign : Sign) (m n : Nat) (e d : Int) :
    compare [sign.apply 1, sign.apply e, sign.apply m] [sign.apply 1, sign.apply d, sign.apply n] =
      match sign with
      | .positive => (compare e d).then (compare m n)
      | .negative => ((compare e d).then (compare m n)).swap := by
  simp only [List.compare_cons_cons, Std.ReflOrd.compare_self, Ordering.then_eq, Ordering.eq_then]
  rw [← compare_natCast]
  match sign with
  | .positive => rfl
  | .negative =>
    show (compare (-e) (-d)).then (compare (-(m : Int)) (-(n : Int))) = _
    rw [compare_neg, compare_neg, Ordering.swap_then, ← Std.OrientedCmp.eq_swap,
      ← Std.OrientedCmp.eq_swap]

theorem compare_eq_levelOf {u v : UnpackedFloat} (hu : u ≠ .notANumber) (hv : v ≠ .notANumber) :
    UnpackedFloat.compare u v = some (compare (levelOf u) (levelOf v)) := by
  match u, v with
  | .notANumber, _ => exact absurd rfl hu
  | _, .notANumber => exact absurd rfl hv
  | .infinity s, .infinity t => cases s <;> cases t <;> rfl
  | .infinity s, .zero _ => cases s <;> rfl
  | .infinity s, .finite t .. => cases s <;> cases t <;> rfl
  | .zero _, .infinity t => cases t <;> rfl
  | .zero _, .zero _ => rfl
  | .zero _, .finite t .. => cases t <;> rfl
  | .finite s .., .infinity t => cases s <;> cases t <;> rfl
  | .finite s .., .zero _ => cases s <;> rfl
  | .finite .negative .., .finite .positive .. => rfl
  | .finite .positive .., .finite .negative .. => rfl
  | .finite .positive m e _, .finite .positive n d _ =>
    exact congrArg some (compare_finite .positive m n e d).symm
  | .finite .negative m e _, .finite .negative n d _ =>
    exact congrArg some (compare_finite .negative m n e d).symm

/-- **Numbers are compared as their levels are.** -/
theorem lt_iff_level (hx : x ≠ Float.nan) (hy : y ≠ Float.nan) :
    x < y ↔ compare (level x) (level y) = .lt := by
  rw [lt_iff, compare_eq_levelOf (ne_nan_iff.mp hx) (ne_nan_iff.mp hy), Option.some.injEq]
  rfl

theorem not_lt_self (hx : x ≠ Float.nan) : ¬x < x := by
  rw [lt_iff_level hx hx, Std.ReflOrd.compare_self]
  nofun

theorem le_iff_not_lt (hx : x ≠ Float.nan) (hy : y ≠ Float.nan) : x ≤ y ↔ ¬y < x := by
  have hle : x ≤ y ↔ (compare (level x) (level y)).isLE = true := by
    show decide (UnpackedFloat.le x.toModel.unpack y.toModel.unpack = true) = true ↔ _
    rw [decide_eq_true_iff, UnpackedFloat.le,
      compare_eq_levelOf (ne_nan_iff.mp hx) (ne_nan_iff.mp hy)]
    rfl
  rw [hle, lt_iff_level hy hx]
  constructor
  · exact Std.OrientedCmp.not_lt_of_isLE
  · intro h
    by_contra hnot
    exact h (Std.OrientedCmp.lt_of_not_isLE hnot)

theorem beq_iff_level (hx : x ≠ Float.nan) (hy : y ≠ Float.nan) :
    (x == y) = true ↔ level x = level y := by
  show (UnpackedFloat.compare x.toModel.unpack y.toModel.unpack == some .eq) = true ↔ _
  rw [beq_iff_eq, compare_eq_levelOf (ne_nan_iff.mp hx) (ne_nan_iff.mp hy), Option.some.injEq,
    Std.LawfulEqCmp.compare_eq_iff_eq]
  rfl

/-! ## Levels and units -/

theorem ne_nan_of_isFinite (hx : x.isFinite) : x ≠ Float.nan := by
  rintro rfl
  have hfinite : Float.nan.toModel.unpack.isFinite = true := hx
  rw [unpack_nan] at hfinite
  cases hfinite

/-- A finite double has its first bit set, or counts in the least power of two. -/
theorem full_or_least {b : BitVec Format.binary64.numBits} {sign : Sign} {m : Nat} {e : Int}
    {hm : 0 < m} (h : UnpackedFloat.unpack Format.binary64 b = .finite sign m e hm) :
    2 ^ 52 ≤ m ∨ e = -1074 := by
  simp only [UnpackedFloat.unpack] at h
  split at h
  · split at h
    · exact absurd h (by simp)
    · exact absurd h (by simp)
  · split at h
    · rename_i hfirst
      split at h
      · exact absurd h (by simp)
      · injection h with _ _ he
        subst he
        rw [hfirst]
        exact Or.inr (by decide)
    · injection h with _ hm _
      subst hm
      left
      rw [BitVec.toNat_append, ← Nat.shiftLeft_add_eq_or_of_lt (BitVec.isLt _)]
      exact Nat.le_add_right (2 ^ 52) _

/-- Of two ways to write a number the one with more in its power of two has less room. -/
theorem le_of_mul_two_pow_eq {m n a b : Nat} (h : m * 2 ^ a = n * 2 ^ b) (hm : m < 2 ^ 53)
    (hn : 2 ^ 52 ≤ n ∨ b = 0) : b ≤ a := by
  by_contra hlt
  obtain ⟨c, rfl⟩ := Nat.exists_eq_add_of_lt (Nat.lt_of_not_le hlt)
  have hcancel : m = n * 2 ^ (c + 1) := by
    refine Nat.eq_of_mul_eq_mul_right (Nat.two_pow_pos a) ?_
    rw [h, Nat.mul_assoc, ← Nat.pow_add]
    congr 2
    omega
  have htwo : n * 2 ≤ n * 2 ^ (c + 1) := by
    rw [Nat.pow_succ, ← Nat.mul_assoc]
    exact Nat.mul_le_mul_right 2 (Nat.le_mul_of_pos_right n (Nat.two_pow_pos c))
  omega

private theorem natAbs_unitsOf_finite (sign : Sign) (m : Nat) (e : Int) (hm : 0 < m) :
    (unitsOf (.finite sign m e hm)).natAbs = m * 2 ^ (e + 1074).toNat := by
  rw [unitsOf, Int.natAbs_mul, Int.natAbs_pow]
  cases sign with
  | negative => rw [Sign.apply, Int.natAbs_neg]; rfl
  | positive => rfl

theorem beq_of_units_eq (hx : x.isFinite) (hy : y.isFinite) (h : units x = units y) :
    (x == y) = true := by
  rw [beq_iff_level (ne_nan_of_isFinite hx) (ne_nan_of_isFinite hy), level, level]
  rw [units, units] at h
  rcases zero_or_coarse hx with ⟨s, hzero⟩ | ⟨s, hcoarse⟩
  · rcases zero_or_coarse hy with ⟨t, hzero'⟩ | ⟨t, hcoarse'⟩
    · rw [hzero, hzero']
      rfl
    · have hside := compare_unitsOf_zero hcoarse'
      rw [← h, hzero] at hside
      cases t <;> cases hside
  · have hside := compare_unitsOf_zero hcoarse
    rcases zero_or_coarse hy with ⟨t, hzero'⟩ | ⟨t, hcoarse'⟩
    · rw [h, hzero'] at hside
      cases s <;> cases hside
    · have hside' := compare_unitsOf_zero hcoarse'
      rw [← h, hside] at hside'
      obtain rfl : s = t := by cases s <;> cases t <;> first | rfl | cases hside'
      obtain ⟨m, e, hm, hfinite, hlt, he⟩ := hcoarse
      obtain ⟨n, d, hn, hfinite', hlt', hd⟩ := hcoarse'
      have hvalue : m * 2 ^ (e + 1074).toNat = n * 2 ^ (d + 1074).toNat := by
        rw [← natAbs_unitsOf_finite s m e hm, ← natAbs_unitsOf_finite s n d hn, ← hfinite,
          ← hfinite', h]
      have hfull := full_or_least hfinite
      have hfull' := full_or_least hfinite'
      have hle := le_of_mul_two_pow_eq hvalue hlt (hfull'.imp_right fun h ↦ by rw [h]; rfl)
      have hge := le_of_mul_two_pow_eq hvalue.symm hlt' (hfull.imp_right fun h ↦ by rw [h]; rfl)
      obtain rfl : e = d := by omega
      obtain rfl : m = n := Nat.eq_of_mul_eq_mul_right (Nat.two_pow_pos _) hvalue
      rw [hfinite, hfinite']

/-! ## Plain doubles -/

/-- The double is a number, and not the zero below zero. -/
structure Plain (x : Float) : Prop where
  /-- It is a number. -/
  number : x ≠ Float.nan
  /-- It is not the zero below zero. -/
  ne_negZero : x ≠ -0

theorem Plain.beq_iff (hx : Plain x) (hy : Plain y) : (x == y) = true ↔ x = y := by
  rw [Float.beq_iff_ne_nan_and_eq]
  constructor
  · rintro ⟨-, -, h | ⟨-, h⟩ | ⟨h, -⟩⟩
    · exact h
    · exact absurd h hy.ne_negZero
    · exact absurd h hx.ne_negZero
  · exact fun h ↦ ⟨hx.number, hy.number, Or.inl h⟩

theorem Plain.level_inj (hx : Plain x) (hy : Plain y) (h : level x = level y) : x = y :=
  (hx.beq_iff hy).mp ((beq_iff_level hx.number hy.number).mpr h)

theorem Plain.eq_of_not_lt (hx : Plain x) (hy : Plain y) (hlt : ¬x < y) (hgt : ¬y < x) : x = y := by
  rw [lt_iff_level hx.number hy.number] at hlt
  rw [lt_iff_level hy.number hx.number] at hgt
  match hcompare : compare (level x) (level y) with
  | .lt => exact absurd hcompare hlt
  | .eq => exact hx.level_inj hy (Std.LawfulEqOrd.eq_of_compare hcompare)
  | .gt => exact absurd (Std.OrientedCmp.lt_of_gt hcompare) hgt

theorem unpack_negZero : (-0 : Float).toModel.unpack = .zero .negative := by
  show (Float.Model.pack (0 : Float).toModel.unpack.neg).unpack = _
  rw [toModel_zero]
  rfl

/-- What a sum is before it is packed, if it is plain. -/
def IsPlain (u : UnpackedFloat) : Prop :=
  (∃ sign, Coarse sign u) ∨ u = .zero .positive ∨ ∃ sign, u = .infinity sign

private theorem plain_of_isPlain {u : UnpackedFloat} (hu : IsPlain u)
    (h : x.toModel.unpack = (Float.Model.pack u).unpack) : Plain x := by
  have hplain : x.toModel.unpack ≠ .notANumber ∧ x.toModel.unpack ≠ .zero .negative := by
    rw [h]
    rcases hu with ⟨sign, hu⟩ | rfl | ⟨sign, rfl⟩
    · have hside := side?_pack hu
      constructor
      · intro hnan
        rw [hnan] at hside
        cases hside
      · intro hzero
        rw [hzero] at hside
        cases sign <;> cases hside
    · rw [unpack_pack_zero]
      exact ⟨nofun, nofun⟩
    · cases sign <;> exact ⟨nofun, nofun⟩
  exact ⟨ne_nan_iff.mpr hplain.1, fun heq ↦ hplain.2 (heq ▸ unpack_negZero)⟩

private theorem isPlain_normalize {m e : Int} (he : -1074 ≤ e) :
    IsPlain (UnpackedFloat.normalize Format.binary64 m e .positive) := by
  rw [UnpackedFloat.normalize]
  cases hm : compare m 0 with
  | lt => exact Or.inl ⟨_, coarse_round .negative (by rw [Int.compare_eq_lt] at hm; omega) he⟩
  | eq => exact Or.inr (Or.inl rfl)
  | gt => exact Or.inl ⟨_, coarse_round .positive (by rw [Int.compare_eq_gt] at hm; omega) he⟩

/-- Zeros of different signs have the sum zero, so a sum is plain if one part is. -/
theorem plain_add (hx : x.isFinite) (hne : x ≠ -0) (hy : y ≠ Float.nan) : Plain (x + y) := by
  refine plain_of_isPlain (u := UnpackedFloat.add Format.binary64 x.toModel.unpack
    y.toModel.unpack) ?_ rfl
  rcases zero_or_coarse hx with ⟨sign, hzero⟩ | ⟨sign, m, e, hm, hfinite, hlt, he⟩
  · obtain rfl : sign = .positive := by
      cases sign with
      | positive => rfl
      | negative => exact absurd (eq_of_unpack_eq (hzero.trans unpack_negZero.symm)) hne
    rw [hzero]
    match hy' : y.toModel.unpack with
    | .notANumber => exact absurd hy' (ne_nan_iff.mp hy)
    | .infinity t => exact Or.inr (Or.inr ⟨t, rfl⟩)
    | .zero t => cases t <;> exact Or.inr (Or.inl rfl)
    | .finite t .. => exact Or.inl ⟨t, coarse_unpack hy'⟩
  · rw [hfinite]
    match hy' : y.toModel.unpack with
    | .notANumber => exact absurd hy' (ne_nan_iff.mp hy)
    | .infinity t => exact Or.inr (Or.inr ⟨t, rfl⟩)
    | .zero t => exact Or.inl ⟨sign, m, e, hm, rfl, hlt, he⟩
    | .finite t n d hn =>
      obtain ⟨_, _, _, heq, -, hd⟩ := coarse_unpack hy'
      injection heq with _ _ heq
      exact isPlain_normalize (by omega)

private theorem add_eq_of_not_isFinite {u v : UnpackedFloat}
    (h : u.isFinite = false ∨ v = .notANumber) :
    UnpackedFloat.add Format.binary64 u v = .notANumber ∨
      ∃ sign, UnpackedFloat.add Format.binary64 u v = .infinity sign := by
  match u, v with
  | .notANumber, _ => exact Or.inl rfl
  | .infinity _, .notANumber => exact Or.inl rfl
  | .zero _, .notANumber => exact Or.inl rfl
  | .finite .., .notANumber => exact Or.inl rfl
  | .infinity s, .infinity t =>
    rw [UnpackedFloat.add]
    split
    · exact Or.inr ⟨s, rfl⟩
    · exact Or.inl rfl
  | .infinity s, .zero _ => exact Or.inr ⟨s, rfl⟩
  | .infinity s, .finite .. => exact Or.inr ⟨s, rfl⟩

private theorem unpack_pack_infinity (sign : Sign) :
    (Float.Model.pack (.infinity sign)).unpack = .infinity sign := by
  cases sign <;> rfl

/-- Where a sum is finite, its first part is, and the second one is a number. -/
theorem isFinite_of_add (h : (x + y).isFinite) : x.isFinite ∧ y ≠ Float.nan := by
  change (Float.Model.pack (UnpackedFloat.add Format.binary64 x.toModel.unpack
    y.toModel.unpack)).unpack.isFinite = true at h
  by_contra hnot
  have hpart : x.toModel.unpack.isFinite = false ∨ y.toModel.unpack = .notANumber := by
    rw [ne_nan_iff, not_and_or, not_not] at hnot
    exact hnot.imp_left Bool.eq_false_iff.mpr
  rcases add_eq_of_not_isFinite hpart with heq | ⟨sign, heq⟩
  · rw [heq, unpack_pack_nan] at h
    cases h
  · rw [heq, unpack_pack_infinity] at h
    cases h

/-- A finite double is plain unless it counts as nothing and zero is put in its place. -/
theorem orElseFloat_zero_ne_negZero (x : Float) : orElseFloat x 0 ≠ -0 := by
  rw [orElseFloat]
  split
  · decide
  · rename_i h
    rintro rfl
    exact h (by decide)

/-! ## Differences of equal doubles -/

theorem side?_ofNat {n : Nat} (hn : 0 < n) : side? (Float.ofNat n).toModel.unpack = some .gt := by
  by_cases h : n < 2 ^ 53
  · rw [unpack_ofNat h, wholeOf, dif_neg (by omega), side?_finite, signOfInt, if_neg (by omega)]
    rfl
  · have hsafe : (0 : Int) ≤ 2 ^ Format.binary64.exponentBits := by decide
    show side? (Float.ofScientific n false 0).toModel.unpack = _
    rw [Float.ofScientific, dif_neg (by omega)]
    show side? (Float.Model.pack (UnpackedFloat.ofScientific Format.binary64 n 0)).unpack = _
    rw [UnpackedFloat.ofScientific, dif_neg (by omega), if_neg (by decide), if_neg (by omega),
      if_pos (by decide)]
    show side? (Float.Model.pack (roundWithAccuracy Format.binary64 .positive (n <<< 53 * 1) (-53)
      .exact)).unpack = _
    rw [Nat.mul_one, Nat.shiftLeft_eq]
    have hpos : 0 < n * 2 ^ 53 := Nat.mul_pos hn (Nat.two_pow_pos _)
    exact side?_pack (coarse_roundWithAccuracy .positive hpos (by decide) .exact)

private theorem compare_of_side?_eq {u v : UnpackedFloat} (hv : side? v = some .eq) :
    UnpackedFloat.compare u v = side? u := by
  match v with
  | .notANumber => cases hv
  | .infinity s => cases s <;> cases hv
  | .finite s .. => cases s <;> cases hv
  | .zero _ =>
    match u with
    | .notANumber => rfl
    | .infinity s => cases s <;> rfl
    | .zero _ => rfl
    | .finite s .. => cases s <;> rfl

/-- The difference of a double to itself is zero or no number, and above nothing positive. -/
theorem not_ofNat_lt_sub_self {n : Nat} (hn : 0 < n) (x : Float) : ¬Float.ofNat n < x - x := by
  rw [lt_iff]
  cases hfinite : x.isFinite with
  | true =>
    have hside : side? (x - x).toModel.unpack = some .eq := by
      rw [show (x - x).toModel = x.toModel - x.toModel from rfl, side?_sub hfinite hfinite,
        Std.ReflOrd.compare_self]
    rw [compare_of_side?_eq hside, side?_ofNat hn]
    decide
  | false =>
    have hnan : (x - x).toModel.unpack = .notANumber := by
      show (Float.Model.pack (UnpackedFloat.sub Format.binary64 x.toModel.unpack
        x.toModel.unpack)).unpack = _
      change x.toModel.unpack.isFinite = false at hfinite
      match h : x.toModel.unpack with
      | .notANumber => exact unpack_pack_nan
      | .infinity s => cases s <;> exact unpack_pack_nan
      | .zero _ =>
        rw [h] at hfinite
        cases hfinite
      | .finite .. =>
        rw [h] at hfinite
        cases hfinite
    rw [hnan]
    cases (Float.ofNat n).toModel.unpack <;> nofun

end SceneSearch
