import Mathlib
import SceneSearch.Number.Double

/-!
# Differences of doubles

Which way two numbers differ is read off the sign of their difference. The difference is rounded,
and may be too large to be finite, but its sign is always right. For every finite double is a whole
number of times the least positive one, so the difference of two is zero or at least that far from
zero, and rounding does not take it any closer.
-/

namespace SceneSearch

open Float.Model (Format UnpackedFloat totalExponent)
open Float.Model.UnpackedFloat

/-! ## Whole numbers of the least double -/

/-- A finite number in units of the least positive double. -/
def unitsOf : UnpackedFloat → Int
  | .finite sign significand exponent _ =>
    sign.apply (significand : Int) * 2 ^ (exponent + 1074).toNat
  | _ => 0

/-- A finite double in units of the least positive one. -/
def units (x : Float) : Int := unitsOf x.toModel.unpack

/-- The side of zero on which a number of a sign lies. -/
def sideOf (sign : Sign) : Ordering := compare (sign.apply 1) 0

/-- The side of zero on which a number lies, if it is one. -/
def side? (x : UnpackedFloat) : Option Ordering := x.compare (.zero .positive)

theorem toModel_zero : (0 : Float).toModel.unpack = .zero .positive := by
  show (Float.ofScientific 0 false 0).toModel.unpack = _
  rw [Float.ofScientific, dif_pos (by decide)]
  rfl

/-! ## Rounding keeps a number off zero -/

theorem mantissa_shiftRight (m : ExtendedMantissa) (k : Nat) :
    (m >>> k).mantissa = m.mantissa / 2 ^ k := by
  show (k.repeat ExtendedMantissa.shiftRightOne m).mantissa = _
  induction k with
  | zero => simp [Nat.repeat]
  | succ k ih =>
    rw [Nat.repeat, ExtendedMantissa.shiftRightOne, ih, Nat.div_div_eq_div_mul, Nat.pow_succ]

theorem mantissa_ofMantissaAndAccuracy (m : Nat) (accuracy : Accuracy) :
    (ExtendedMantissa.ofMantissaAndAccuracy m accuracy).mantissa = m := by
  match accuracy with
  | .exact => rfl
  | .inexact .lt => rfl
  | .inexact .eq => rfl
  | .inexact .gt => rfl

theorem le_roundedMantissa (m : ExtendedMantissa) : m.mantissa ≤ m.roundedMantissa := by
  rw [ExtendedMantissa.roundedMantissa]
  match m.accuracy with
  | .exact => exact Nat.le_refl _
  | .inexact .lt => exact Nat.le_refl _
  | .inexact .eq => exact Nat.le_add_right _ _
  | .inexact .gt => exact Nat.le_succ _

theorem targetExponent_eq (total : Int) :
    Format.binary64.targetExponent total = max (total - 53) (-1074) := rfl

/-- As many bits are shifted out of a significand as it has more than 53. -/
theorem shift_eq {m : Nat} {e : Int} (he : -1074 ≤ e) :
    (Format.binary64.targetExponent (totalExponent m e) - e).toNat = m.log2 - 52 := by
  rw [targetExponent_eq, totalExponent]
  omega

theorem shifted_bounds {m : Nat} (hm : 0 < m) :
    0 < m / 2 ^ (m.log2 - 52) ∧ m / 2 ^ (m.log2 - 52) < 2 ^ 53 := by
  have hpos : 0 < 2 ^ (m.log2 - 52) := Nat.two_pow_pos _
  constructor
  · refine Nat.div_pos ?_ hpos
    calc 2 ^ (m.log2 - 52) ≤ 2 ^ m.log2 := Nat.pow_le_pow_right (by decide) (Nat.sub_le _ _)
      _ ≤ m := Nat.log2_self_le (Nat.ne_of_gt hm)
  · rw [Nat.div_lt_iff_lt_mul hpos, ← Nat.pow_add]
    calc m < 2 ^ (m.log2 + 1) := Nat.lt_log2_self
      _ ≤ 2 ^ (53 + (m.log2 - 52)) := Nat.pow_le_pow_right (by decide) (by omega)

/-- A number that is not zero and not finer than a double. -/
def Coarse (sign : Sign) (x : UnpackedFloat) : Prop :=
  ∃ m e h, x = .finite sign m e h ∧ m < 2 ^ 53 ∧ -1074 ≤ e

theorem mantissa_shiftToTargetExponent {m : Nat} {e : Int} (he : -1074 ≤ e)
    (accuracy : Accuracy) :
    (shiftToTargetExponent Format.binary64 m e accuracy).1.mantissa = m / 2 ^ (m.log2 - 52) := by
  simp only [shiftToTargetExponent, shiftToExponent, mantissa_shiftRight,
    mantissa_ofMantissaAndAccuracy, shift_eq he]

private theorem coarse_shiftToTargetExponent (sign : Sign) {m : Nat} {e : Int} (hm : 0 < m)
    (he : -1074 ≤ e) :
    Coarse sign
      (if h : (shiftToTargetExponent Format.binary64 m e .exact).1.mantissa = 0 then .zero sign
      else .finite sign _ (shiftToTargetExponent Format.binary64 m e .exact).2
        (Nat.pos_of_ne_zero h)) := by
  obtain ⟨hpos, hlt⟩ := shifted_bounds hm
  rw [← mantissa_shiftToTargetExponent he .exact] at hpos hlt
  rw [dif_neg (Nat.ne_of_gt hpos)]
  exact ⟨_, _, hpos, rfl, hlt,
    Int.le_trans he (Int.le_add_of_nonneg_right (Int.natCast_nonneg _))⟩

theorem coarse_roundWithAccuracy (sign : Sign) {m : Nat} {e : Int} (hm : 0 < m) (he : -1074 ≤ e)
    (accuracy : Accuracy) :
    Coarse sign (roundWithAccuracy Format.binary64 sign m e accuracy) := by
  have hle := le_roundedMantissa (shiftToTargetExponent Format.binary64 m e accuracy).1
  rw [mantissa_shiftToTargetExponent he] at hle
  -- rounding may give one bit too many, so what is left is cut once more
  refine coarse_shiftToTargetExponent sign (Nat.lt_of_lt_of_le (shifted_bounds hm).1 hle) ?_
  exact Int.le_trans he (Int.le_add_of_nonneg_right (Int.natCast_nonneg _))

theorem coarse_round (sign : Sign) {m : Nat} {e : Int} (hm : 0 < m) (he : -1074 ≤ e) :
    Coarse sign (UnpackedFloat.round Format.binary64 sign m e) := by
  rw [UnpackedFloat.round, decreaseExponent]
  refine coarse_roundWithAccuracy sign ?_ ?_ .exact
  · rw [Nat.shiftLeft_eq]
    exact Nat.mul_pos hm (Nat.two_pow_pos _)
  · rw [targetExponent_eq]
    omega

/-! ## Packing keeps the side of zero -/

theorem unpackSign_packComponents {spec : Format} {sign : Sign} {e : BitVec spec.exponentBits}
    {m : BitVec spec.mantissaBitsWithoutImplicit} :
    unpackSign (packComponents spec sign e m) = sign.toBitVec := by
  refine BitVec.eq_of_getLsbD_eq fun i hi ↦ ?_
  obtain rfl : i = 0 := by omega
  simp [unpackSign, packComponents, BitVec.getLsbD_append, BitVec.getElem_append]

theorem ofBitVec_toBitVec (sign : Sign) : Sign.ofBitVec sign.toBitVec = sign := by
  match sign with
  | .negative => rfl
  | .positive => rfl

theorem side?_finite (sign : Sign) (m : Nat) (e : Int) (h : 0 < m) :
    side? (.finite sign m e h) = some (sideOf sign) := by
  match sign with
  | .negative => rfl
  | .positive => rfl

private theorem side?_infinity (sign : Sign) : side? (.infinity sign) = some (sideOf sign) := by
  match sign with
  | .negative => rfl
  | .positive => rfl

private theorem side?_packComponents (sign : Sign) {e : BitVec 11} {m : BitVec 52}
    (hnumber : e = -1#11 → m = 0#52) (hzero : e = 0#11 → m ≠ 0#52) :
    side? (UnpackedFloat.unpack Format.binary64 (packComponents Format.binary64 sign e m)) =
      some (sideOf sign) := by
  simp only [UnpackedFloat.unpack, unpackMantissa_packComponents, unpackExponent_packComponents,
    unpackSign_packComponents, ofBitVec_toBitVec]
  by_cases hlast : e = -1#11
  · rw [if_pos hlast, if_pos (hnumber hlast)]
    exact side?_infinity sign
  · rw [if_neg hlast]
    by_cases hfirst : e = 0#11
    · rw [if_pos hfirst, dif_neg (hzero hfirst)]
      exact side?_finite ..
    · rw [if_neg hfirst]
      exact side?_finite ..

theorem pack_finite (sign : Sign) {m : Nat} (e : Int) (hm : 0 < m) :
    UnpackedFloat.pack Format.binary64 (.finite sign m e hm) =
      if 2 ^ 11 ≤ (e + 1023 + 52).toNat + 1 then packedInfinity Format.binary64 sign
      else if m.log2 + 1 = 53 then
        packComponents Format.binary64 sign (BitVec.ofNat 11 (e + 1023 + 52).toNat)
          (BitVec.ofNat 52 m)
      else packComponents Format.binary64 sign 0#11 (BitVec.ofNat 52 m) := rfl

theorem unpack_pack_zero (sign : Sign) : (Float.Model.pack (.zero sign)).unpack = .zero sign := by
  match sign with
  | .negative => rfl
  | .positive => rfl

theorem side?_pack {sign : Sign} {x : UnpackedFloat} (h : Coarse sign x) :
    side? (Float.Model.pack x).unpack = some (sideOf sign) := by
  obtain ⟨m, e, hm, rfl, hlt, he⟩ := h
  show side? (UnpackedFloat.unpack _ (UnpackedFloat.pack Format.binary64 _)) = _
  rw [pack_finite]
  by_cases hover : 2 ^ 11 ≤ (e + 1023 + 52).toNat + 1
  · rw [if_pos hover]
    exact side?_packComponents sign (fun _ ↦ rfl) (by decide)
  rw [if_neg hover]
  by_cases hnormal : m.log2 + 1 = 53
  · rw [if_pos hnormal]
    -- the exponent is neither the first nor the last one
    have hexp : (BitVec.ofNat 11 (e + 1023 + 52).toNat).toNat = (e + 1023 + 52).toNat := by
      rw [BitVec.toNat_ofNat, Nat.mod_eq_of_lt (by omega)]
    refine side?_packComponents sign (fun h ↦ ?_) (fun h ↦ ?_)
    · have hlast : (e + 1023 + 52).toNat = 2047 := hexp.symm.trans (congrArg BitVec.toNat h)
      omega
    · have hfirst : (e + 1023 + 52).toNat = 0 := hexp.symm.trans (congrArg BitVec.toNat h)
      omega
  · rw [if_neg hnormal]
    refine side?_packComponents sign (fun h ↦ absurd h (by decide)) (fun _ h ↦ ?_)
    have hbits : m.log2 < 53 := (Nat.log2_lt (Nat.ne_of_gt hm)).mpr hlt
    have hsmall : m < 2 ^ 52 := (Nat.log2_lt (Nat.ne_of_gt hm)).mp (by omega)
    have hnone : m % 2 ^ 52 = 0 := congrArg BitVec.toNat h
    rw [Nat.mod_eq_of_lt hsmall] at hnone
    omega

/-! ## The side of zero of a difference -/

private theorem sideOf_neg (sign : Sign) : sideOf (-sign) = (sideOf sign).swap := by
  match sign with
  | .negative => rfl
  | .positive => rfl

private theorem side?_normalize {m e : Int} (he : -1074 ≤ e) :
    side? (Float.Model.pack (UnpackedFloat.normalize Format.binary64 m e .positive)).unpack =
      some (compare m 0) := by
  rw [UnpackedFloat.normalize]
  match hm : compare m 0 with
  | .lt => exact side?_pack (coarse_round .negative (by rw [Int.compare_eq_lt] at hm; omega) he)
  | .eq =>
    show side? (Float.Model.pack (.zero .positive)).unpack = _
    rw [unpack_pack_zero]
    rfl
  | .gt => exact side?_pack (coarse_round .positive (by rw [Int.compare_eq_gt] at hm; omega) he)

theorem coarse_unpack {b : BitVec Format.binary64.numBits} {sign : Sign} {m : Nat} {e : Int}
    {hm : 0 < m} (h : UnpackedFloat.unpack Format.binary64 b = .finite sign m e hm) :
    Coarse sign (.finite sign m e hm) := by
  have hbias : (Format.binary64.exponentBias : Int) = 1023 := rfl
  simp only [UnpackedFloat.unpack] at h
  split at h
  · split at h
    · exact absurd h (by simp)
    · exact absurd h (by simp)
  · split at h
    · split at h
      · exact absurd h (by simp)
      · -- an exponent of zero stands for the same power of two as an exponent of one
        rename_i hfirst _
        injection h with _ hm he
        subst hm he
        refine ⟨_, _, _, rfl, Nat.lt_trans (BitVec.isLt _) (by decide), ?_⟩
        rw [hfirst]
        decide
    · rename_i hfirst
      injection h with _ hm he
      subst hm he
      refine ⟨_, _, _, rfl, BitVec.isLt (1#1 ++ unpackMantissa b), ?_⟩
      have hpos : 0 < (unpackExponent b).toNat := BitVec.toNat_pos_of_ne_zero hfirst
      omega

theorem zero_or_coarse {x : Float.Model} (h : x.isFinite) :
    (∃ sign, x.unpack = .zero sign) ∨ ∃ sign, Coarse sign x.unpack := by
  rw [Float.Model.isFinite] at h
  match hx : x.unpack with
  | .notANumber => simp [hx, UnpackedFloat.isFinite] at h
  | .infinity _ => simp [hx, UnpackedFloat.isFinite] at h
  | .zero sign => exact Or.inl ⟨sign, rfl⟩
  | .finite sign _ _ _ => exact Or.inr ⟨sign, coarse_unpack hx⟩

theorem compare_unitsOf_zero {sign : Sign} {x : UnpackedFloat} (h : Coarse sign x) :
    compare (unitsOf x) 0 = sideOf sign := by
  obtain ⟨m, e, hm, rfl, -⟩ := h
  have hpos : 0 < (m : Int) * 2 ^ (e + 1074).toNat :=
    Int.mul_pos (Int.natCast_pos.mpr hm) (Int.pow_pos (by decide))
  match sign with
  | .negative =>
    refine Int.compare_eq_lt.mpr ?_
    rw [unitsOf, Sign.apply, Int.neg_mul]
    omega
  | .positive => exact Int.compare_eq_gt.mpr hpos

theorem apply_shiftLeft (sign : Sign) (m k : Nat) :
    sign.apply ((m <<< k : Nat) : Int) = sign.apply m * 2 ^ k := by
  rw [Nat.shiftLeft_eq]
  match sign with
  | .negative => simp [Sign.apply]
  | .positive => simp [Sign.apply]

private theorem compare_mul_unit (a b : Int) (k : Nat) :
    compare (a * 2 ^ k) (b * 2 ^ k) = compare a b := by
  rw [← cmp_eq_compare, ← cmp_eq_compare]
  exact cmp_mul_pos_right (Int.pow_pos (by decide)) a b

theorem unitsOf_finite {sign : Sign} {m : Nat} {e least : Int} {hm : 0 < m} (hle : least ≤ e)
    (hleast : -1074 ≤ least) :
    unitsOf (.finite sign m e hm) =
      sign.apply ((m <<< (e - least).toNat : Nat) : Int) * 2 ^ (least + 1074).toNat := by
  rw [apply_shiftLeft, Int.mul_assoc, ← Int.pow_add, unitsOf]
  congr 2
  omega

private theorem side?_sub_coarse {s t : Sign} {x y : UnpackedFloat} (hx : Coarse s x)
    (hy : Coarse t y) :
    side? (Float.Model.pack (UnpackedFloat.sub Format.binary64 x y)).unpack =
      some (compare (unitsOf x) (unitsOf y)) := by
  obtain ⟨m, e, hm, rfl, -, he⟩ := hx
  obtain ⟨n, d, hn, rfl, -, hd⟩ := hy
  have hleast : -1074 ≤ min e d := by omega
  rw [unitsOf_finite (min_le_left e d) hleast, unitsOf_finite (min_le_right e d) hleast,
    compare_mul_unit]
  refine (side?_normalize hleast).trans ?_
  rw [← cmp_eq_compare, ← cmp_eq_compare, cmp_sub_zero]

/-- The difference of two finite doubles lies on the side of zero on which the exact one lies. -/
theorem side?_sub {x y : Float.Model} (hx : x.isFinite) (hy : y.isFinite) :
    side? (x - y).unpack = some (compare (unitsOf x.unpack) (unitsOf y.unpack)) := by
  show side? (Float.Model.pack (UnpackedFloat.sub Format.binary64 x.unpack y.unpack)).unpack = _
  rcases zero_or_coarse hx with ⟨s, hx⟩ | ⟨s, hx⟩
  · rcases zero_or_coarse hy with ⟨t, hy⟩ | ⟨t, hy⟩
    · have hsub : ∃ sign, UnpackedFloat.sub Format.binary64 (.zero s) (.zero t) = .zero sign := by
        rw [UnpackedFloat.sub]
        split
        · exact ⟨_, rfl⟩
        · exact ⟨_, rfl⟩
      obtain ⟨sign, hsub⟩ := hsub
      rw [hx, hy, hsub, unpack_pack_zero]
      rfl
    · have hsub : Coarse (-t) (UnpackedFloat.sub Format.binary64 (.zero s) y.unpack) := by
        obtain ⟨m, e, hm, hy, hlt, he⟩ := hy
        rw [hy]
        exact ⟨m, e, hm, rfl, hlt, he⟩
      rw [hx, side?_pack hsub, sideOf_neg, ← compare_unitsOf_zero hy, ← Std.OrientedCmp.eq_swap]
      rfl
  · rcases zero_or_coarse hy with ⟨t, hy⟩ | ⟨t, hy⟩
    · have hsub : UnpackedFloat.sub Format.binary64 x.unpack (.zero t) = x.unpack := by
        obtain ⟨m, e, hm, hx, -⟩ := hx
        rw [hx]
        rfl
      rw [hy, hsub, side?_pack hx, ← compare_unitsOf_zero hx]
      rfl
    · exact side?_sub_coarse hx hy

/-! ## What a difference says -/

theorem isNothing_eq (x : Float) : isNothing x = (side? x.toModel.unpack == some .eq) := by
  rw [side?, ← toModel_zero]
  rfl

private theorem compare_zero_eq (x : UnpackedFloat) :
    UnpackedFloat.compare (.zero .positive) x = (side? x).map Ordering.swap := by
  match x with
  | .notANumber => rfl
  | .infinity .negative => rfl
  | .infinity .positive => rfl
  | .zero _ => rfl
  | .finite .negative .. => rfl
  | .finite .positive .. => rfl

theorem lt_iff (x y : Float) :
    x < y ↔ UnpackedFloat.compare x.toModel.unpack y.toModel.unpack = some .lt := by
  show Float.lt x y = true ↔ _
  rw [Float.lt, decide_eq_true_iff, ← beq_iff_eq]
  exact Iff.rfl

theorem pos_iff (x : Float) : 0 < x ↔ side? x.toModel.unpack = some .gt := by
  rw [lt_iff, toModel_zero, compare_zero_eq]
  match side? x.toModel.unpack with
  | none => simp
  | some .lt => simp
  | some .eq => simp
  | some .gt => simp

theorem neg_iff (x : Float) : x < 0 ↔ side? x.toModel.unpack = some .lt := by
  rw [lt_iff, toModel_zero, side?]

private theorem compare_signOf {x : Float} {o : Ordering} (h : side? x.toModel.unpack = some o) :
    compare (signOf x) 0 = o := by
  rw [signOf]
  simp only [pos_iff, neg_iff, h]
  match o with
  | .lt => rfl
  | .eq => rfl
  | .gt => rfl

/-- **The sign of a difference is right**: two finite doubles differ as the numbers do that they
stand for. -/
theorem compare_signOf_sub {u v : Float} (hu : u.isFinite) (hv : v.isFinite) :
    compare (signOf (u - v)) 0 = compare (units u) (units v) :=
  compare_signOf (side?_sub hu hv)

theorem isNothing_sub {u v : Float} (hu : u.isFinite) (hv : v.isFinite) :
    isNothing (u - v) = true ↔ units u = units v := by
  rw [isNothing_eq, beq_iff_eq, show (u - v).toModel = u.toModel - v.toModel from rfl,
    side?_sub hu hv, Option.some.injEq]
  exact compare_eq_iff_eq

theorem isFinite_zero : (0 : Float).isFinite = true := by
  show UnpackedFloat.isFinite (0 : Float).toModel.unpack = true
  rw [toModel_zero]
  rfl

theorem isFinite_orElseFloat {x fallback : Float} (hx : x.isFinite)
    (hfallback : fallback.isFinite) : (orElseFloat x fallback).isFinite := by
  rw [orElseFloat]
  split
  · exact hfallback
  · exact hx

end SceneSearch
