import SceneSearch.Number.Literal
import SceneSearch.Proofs.Number.Difference

/-!
# Integers in the range of doubles

A double has room for fifty-three bits. An integer with more of them is rounded to these, and may
be rounded up to the next power of two. So an integer has a nearest finite double exactly if it is
below the middle between the greatest double and the power of two behind it; the middle itself is
rounded away from zero, since the greatest double is odd in its last place.
-/

namespace SceneSearch

open Float.Model (Format UnpackedFloat totalExponent)
open Float.Model.UnpackedFloat

/-! ## Rounding to fifty-three bits -/

/-- Of what is shifted out the first bit is kept, and whether any other one was set. -/
theorem ofMantissa_shiftRight (m k : Nat) :
    ExtendedMantissa.ofMantissaAndAccuracy m .exact >>> (k + 1) =
      ⟨m / 2 ^ (k + 1), m / 2 ^ k % 2 != 0, m % 2 ^ k != 0⟩ := by
  show (k + 1).repeat ExtendedMantissa.shiftRightOne _ = _
  induction k with
  | zero => simp [Nat.repeat, ExtendedMantissa.ofMantissaAndAccuracy,
      ExtendedMantissa.shiftRightOne, Nat.mod_one]
  | succ k ih =>
    have hsticky : (m / 2 ^ k % 2 != 0 || m % 2 ^ k != 0) = (m % 2 ^ (k + 1) != 0) := by
      have hpos : 0 < 2 ^ k := Nat.two_pow_pos k
      rw [Nat.mod_pow_succ, Bool.eq_iff_iff]
      simp only [Bool.or_eq_true, bne_iff_ne, ne_eq, Nat.add_eq_zero_iff, Nat.mul_eq_zero]
      omega
    rw [Nat.repeat, ih, ExtendedMantissa.shiftRightOne, Nat.div_div_eq_div_mul, ← Nat.pow_succ,
      hsticky]

/-- What is left out counts as one if it is more than half, or half and the last bit is set. -/
theorem roundedMantissa_mk (kept : Nat) (half more : Bool) :
    (ExtendedMantissa.mk kept half more).roundedMantissa =
      if half then (if more then kept + 1 else kept + kept % 2) else kept := by
  cases half <;> cases more <;> rfl

/-- Rounding gives fifty-three bits, or the next power of two if the bits that are kept, and the
first one that is not, are all set. -/
theorem roundedMantissa_spec {m k : Nat} (hlow : 2 ^ 53 ≤ m / 2 ^ k) (hhigh : m / 2 ^ k < 2 ^ 54)
    {rounded : Nat} (hrounded :
      (ExtendedMantissa.ofMantissaAndAccuracy m .exact >>> (k + 1)).roundedMantissa = rounded) :
    2 ^ 52 ≤ rounded ∧ rounded ≤ 2 ^ 53 ∧ (rounded = 2 ^ 53 ↔ m / 2 ^ k = 2 ^ 54 - 1) := by
  have hhalf : m / 2 ^ (k + 1) = m / 2 ^ k / 2 := by rw [Nat.pow_succ, Nat.div_div_eq_div_mul]
  rw [ofMantissa_shiftRight, hhalf, roundedMantissa_mk] at hrounded
  generalize m / 2 ^ k = kept at *
  rcases Nat.mod_two_eq_zero_or_one kept with hbit | hbit
  · rw [hbit] at hrounded
    have hdown : kept / 2 = rounded := hrounded
    omega
  · rw [hbit] at hrounded
    have hup : kept / 2 + 1 = rounded ∨ kept / 2 + kept / 2 % 2 = rounded := by
      rw [if_pos (by decide)] at hrounded
      split at hrounded
      · exact Or.inl hrounded
      · exact Or.inr hrounded
    omega

theorem shiftToTargetExponent_eq (m : Nat) {e : Int} (he : -1074 ≤ e) :
    shiftToTargetExponent Format.binary64 m e .exact =
      (ExtendedMantissa.ofMantissaAndAccuracy m .exact >>> (m.log2 - 52),
        e + (m.log2 - 52 : Nat)) := by
  simp only [shiftToTargetExponent, shiftToExponent, shift_eq he]

/-- **The power of two that a rounded number counts in**: that of its fifty-three bits, or the next
one if it is rounded up to a power of two. -/
theorem exists_roundWithAccuracy (sign : Sign) {m : Nat} {e : Int} (hm : 2 ^ 53 ≤ m)
    (he : -1074 ≤ e) :
    ∃ m' e' h, roundWithAccuracy Format.binary64 sign m e .exact = .finite sign m' e' h ∧
      e' = e + (m.log2 - 52 : Nat) +
        if m / 2 ^ (m.log2 - 53) = 2 ^ 54 - 1 then 1 else 0 := by
  have hne : m ≠ 0 := by omega
  have hlog : 53 ≤ m.log2 := (Nat.le_log2 hne).mpr hm
  have hlow : 2 ^ 53 ≤ m / 2 ^ (m.log2 - 53) := by
    rw [Nat.le_div_iff_mul_le (Nat.two_pow_pos _), ← Nat.pow_add, Nat.add_sub_cancel' hlog]
    exact Nat.log2_self_le hne
  have hhigh : m / 2 ^ (m.log2 - 53) < 2 ^ 54 := by
    have hsum : 54 + (m.log2 - 53) = m.log2 + 1 := by omega
    rw [Nat.div_lt_iff_lt_mul (Nat.two_pow_pos _), ← Nat.pow_add, hsum]
    exact Nat.lt_log2_self
  have hshift : m.log2 - 52 = m.log2 - 53 + 1 := by omega
  obtain ⟨hge, hle, hup⟩ := roundedMantissa_spec hlow hhigh rfl
  rw [← hshift] at hge hle hup
  rw [roundWithAccuracy, shiftToTargetExponent_eq m he]
  dsimp only
  generalize (ExtendedMantissa.ofMantissaAndAccuracy m .exact >>> (m.log2 - 52)).roundedMantissa =
    rounded at *
  have he' : -1074 ≤ e + (m.log2 - 52 : Nat) := by omega
  have hpos := (shifted_bounds (m := rounded) (by omega)).1
  rw [← mantissa_shiftToTargetExponent he' .exact] at hpos
  rw [dif_neg (Nat.ne_of_gt hpos)]
  refine ⟨_, _, hpos, rfl, ?_⟩
  rw [shiftToTargetExponent_eq rounded he']
  dsimp only
  split
  · rename_i hall
    rw [hup.mpr hall, Nat.log2_two_pow]
    rfl
  · rename_i hnot
    have hbits : rounded.log2 = 52 := by
      refine (Nat.log2_eq_iff (by omega)).mpr ⟨hge, ?_⟩
      have hne' : rounded ≠ 2 ^ 53 := fun heq ↦ hnot (hup.mp heq)
      omega
    rw [hbits]
    rfl

theorem roundedMantissa_le (m : ExtendedMantissa) : m.roundedMantissa ≤ m.mantissa + 1 := by
  rw [ExtendedMantissa.roundedMantissa]
  cases m.accuracy with
  | exact => exact Nat.le_succ _
  | inexact half =>
    cases half with
    | lt => exact Nat.le_succ _
    | eq => exact Nat.add_le_add_left (Nat.le_of_lt_succ (Nat.mod_lt _ (by decide))) _
    | gt => exact Nat.le_refl _

theorem exponent_shiftToTargetExponent (m : Nat) (e : Int) (accuracy : Accuracy) :
    (shiftToTargetExponent Format.binary64 m e accuracy).2 =
      max e (max (m.log2 + e - 52) (-1074)) := by
  simp only [shiftToTargetExponent, shiftToExponent, targetExponent_eq, totalExponent]
  omega

private theorem mantissa_shiftToTargetExponent_lt (m : Nat) (e : Int) (accuracy : Accuracy) :
    (shiftToTargetExponent Format.binary64 m e accuracy).1.mantissa < 2 ^ 53 := by
  simp only [shiftToTargetExponent, shiftToExponent, mantissa_shiftRight,
    mantissa_ofMantissaAndAccuracy, targetExponent_eq, totalExponent]
  rw [Nat.div_lt_iff_lt_mul (Nat.two_pow_pos _), ← Nat.pow_add]
  calc m < 2 ^ (m.log2 + 1) := Nat.lt_log2_self
    _ ≤ _ := Nat.pow_le_pow_right (by decide) (by omega)

/-- Rounding raises the power of two that a number of fifty-three bits would count in by at most
one. -/
theorem zero_or_exists_roundWithAccuracy (sign : Sign) {m : Nat} {e c : Int} (hc : -1074 ≤ c)
    (he : e ≤ c) (hm : m.log2 + e - 52 ≤ c) :
    roundWithAccuracy Format.binary64 sign m e .exact = .zero sign ∨
      ∃ m' e' h, roundWithAccuracy Format.binary64 sign m e .exact = .finite sign m' e' h ∧
        e' ≤ c + 1 := by
  rw [roundWithAccuracy]
  dsimp only
  split
  · exact Or.inl rfl
  rename_i hpos
  refine Or.inr ⟨_, _, Nat.pos_of_ne_zero hpos, rfl, ?_⟩
  have hle := roundedMantissa_le (shiftToTargetExponent Format.binary64 m e .exact).1
  have hlt := mantissa_shiftToTargetExponent_lt m e .exact
  rw [exponent_shiftToTargetExponent, exponent_shiftToTargetExponent]
  generalize (shiftToTargetExponent Format.binary64 m e .exact).1.roundedMantissa =
    rounded at hle
  have hbits : rounded.log2 ≤ 53 := by
    by_cases hzero : rounded = 0
    · rw [hzero]
      decide
    · exact Nat.le_of_lt_succ ((Nat.log2_lt hzero).mpr (by omega))
  omega

/-! ## Packing -/

private theorem isInf_unpack_packComponents {sign : Sign} {e : BitVec 11} {m : BitVec 52}
    (h : e ≠ -1#11) :
    (UnpackedFloat.unpack Format.binary64 (packComponents Format.binary64 sign e m)).isInf =
      false := by
  simp only [UnpackedFloat.unpack, unpackMantissa_packComponents, unpackExponent_packComponents]
  rw [if_neg h]
  split
  · split <;> rfl
  · rfl

theorem isInf_unpack_packedInfinity (sign : Sign) :
    (UnpackedFloat.unpack Format.binary64 (packedInfinity Format.binary64 sign)).isInf = true := by
  match sign with
  | .negative => rfl
  | .positive => rfl

/-- What counts in too large a power of two is packed as infinity, and nothing else. -/
theorem isInf_unpack_pack (sign : Sign) {m : Nat} {e : Int} (hm : 0 < m) :
    (Float.Model.pack (.finite sign m e hm)).unpack.isInf = decide (972 ≤ e) := by
  show (UnpackedFloat.unpack _ (UnpackedFloat.pack Format.binary64 _)).isInf = _
  rw [pack_finite]
  by_cases hover : 2 ^ 11 ≤ (e + 1023 + 52).toNat + 1
  · rw [if_pos hover, decide_eq_true (by omega)]
    exact isInf_unpack_packedInfinity sign
  · rw [if_neg hover, decide_eq_false (by omega)]
    split
    · refine isInf_unpack_packComponents fun h ↦ ?_
      have hlast : (e + 1023 + 52).toNat % 2 ^ 11 = 2047 := congrArg BitVec.toNat h
      rw [Nat.mod_eq_of_lt (by omega)] at hlast
      omega
    · exact isInf_unpack_packComponents (by decide)

/-- The power of two of a number comes from the exponent it is unpacked from, which is not the
last one. -/
theorem exponent_unpack {b : BitVec Format.binary64.numBits} {sign : Sign} {m : Nat} {e : Int}
    {hm : 0 < m} (h : UnpackedFloat.unpack Format.binary64 b = .finite sign m e hm) :
    unpackExponent b ≠ -1#11 ∧ e ≤ max ((unpackExponent b).toNat - 1075 : Int) (-1074) := by
  have hbias : (Format.binary64.exponentBias : Int) = 1023 := rfl
  have hbits : (Format.binary64.mantissaBitsWithoutImplicit : Int) = 52 := rfl
  simp only [UnpackedFloat.unpack] at h
  split at h
  · split at h
    · exact absurd h (by simp)
    · exact absurd h (by simp)
  · rename_i hlast
    refine ⟨hlast, ?_⟩
    split at h
    · rename_i hfirst
      have hzero : (unpackExponent b).toNat = 0 := congrArg BitVec.toNat hfirst
      split at h
      · exact absurd h (by simp)
      · injection h with _ _ he
        omega
    · injection h with _ _ he
      omega

theorem exponent_le_of_unpack {b : BitVec Format.binary64.numBits} {sign : Sign} {m : Nat}
    {e : Int} {hm : 0 < m} (h : UnpackedFloat.unpack Format.binary64 b = .finite sign m e hm) :
    e ≤ 971 := by
  obtain ⟨hlast, he⟩ := exponent_unpack h
  have hlt : (unpackExponent b).toNat < 2 ^ 11 := BitVec.isLt _
  have hne : (unpackExponent b).toNat ≠ 2047 := fun h ↦ hlast (BitVec.eq_of_toNat_eq h)
  omega

/-- A number that is packed does not come back in a greater power of two. -/
theorem exponent_unpack_pack_le {sign s : Sign} {m m' : Nat} {e e' : Int} {hm : 0 < m}
    {hm' : 0 < m'}
    (h : (Float.Model.pack (.finite sign m e hm)).unpack = .finite s m' e' hm') :
    e' ≤ max e (-1074) := by
  change UnpackedFloat.unpack _ (UnpackedFloat.pack Format.binary64 _) = _ at h
  rw [pack_finite] at h
  split at h
  · have hinf := isInf_unpack_packedInfinity sign
    rw [h] at hinf
    cases hinf
  · split at h
    · obtain ⟨-, he⟩ := exponent_unpack h
      rw [unpackExponent_packComponents, BitVec.toNat_ofNat] at he
      have hle := Nat.mod_le (e + 1023 + 52).toNat (2 ^ Format.binary64.exponentBits)
      omega
    · obtain ⟨-, he⟩ := exponent_unpack h
      rw [unpackExponent_packComponents] at he
      exact Int.le_trans he (Int.le_max_right _ _)

/-! ## Integers -/

theorem log2_mul_two_pow {n : Nat} (h : n ≠ 0) (k : Nat) : (n * 2 ^ k).log2 = n.log2 + k := by
  rw [Nat.log2_eq_iff (Nat.mul_ne_zero h (Nat.two_pow_pos k).ne'), Nat.add_right_comm, Nat.pow_add,
    Nat.pow_add]
  exact ⟨Nat.mul_le_mul_right _ (Nat.log2_self_le h),
    Nat.mul_lt_mul_of_pos_right Nat.lt_log2_self (Nat.two_pow_pos k)⟩

theorem two_pow_le_div_iff {n : Nat} (h : n ≠ 0) (k j : Nat) :
    2 ^ k ≤ n / 2 ^ j ↔ k + j ≤ n.log2 := by
  rw [Nat.le_div_iff_mul_le (Nat.two_pow_pos j), ← Nat.pow_add, Nat.le_log2 h]

theorem mul_two_pow_div {l k j : Nat} (h : l = j + k) (n : Nat) :
    n * 2 ^ k / 2 ^ l = n / 2 ^ j := by
  rw [h, Nat.pow_add, Nat.mul_div_mul_right _ _ (Nat.two_pow_pos k)]

private theorem three_mul_le_log2 {n k : Nat} (hk : 0 < k) (h : k < (Nat.toDigits 10 n).length) :
    3 * k ≤ n.log2 := by
  rw [← Nat.not_le, Nat.length_toDigits_le_iff (by decide) hk, Nat.not_lt] at h
  have hne : n ≠ 0 := (Nat.lt_of_lt_of_le (Nat.pow_pos (by decide)) h).ne'
  rw [Nat.le_log2 hne, Nat.pow_mul]
  exact Nat.le_trans (Nat.pow_le_pow_left (by decide) k) h

/-- What is left of a number without its last `j` bits is short of `k` set bits exactly below the
number that has these bits only. -/
theorem div_two_pow_lt_iff (n k j : Nat) : n / 2 ^ j < 2 ^ k - 1 ↔ n < 2 ^ (k + j) - 2 ^ j := by
  rw [Nat.div_lt_iff_lt_mul (Nat.two_pow_pos j), Nat.sub_mul, Nat.one_mul, Nat.pow_add]

theorem unpack_one : (Float.ofBits 0x3FF0000000000000).toModel.unpack =
    .finite .positive (2 ^ 52) (-52) (by decide) := rfl

private theorem zero_or_exists_round {n : Nat} (hpos : 0 < n) (h : n < 2 ^ 53) :
    UnpackedFloat.round Format.binary64 .positive n 0 = .zero .positive ∨
      ∃ m e hm, UnpackedFloat.round Format.binary64 .positive n 0 = .finite .positive m e hm ∧
        e ≤ 1 := by
  have hbits : n.log2 < 53 := (Nat.log2_lt hpos.ne').mpr h
  rw [UnpackedFloat.round, decreaseExponent]
  refine zero_or_exists_roundWithAccuracy .positive (c := 0) (by decide) ?_ ?_
  · omega
  · rw [Nat.shiftLeft_eq, log2_mul_two_pow hpos.ne']
    omega

/-- A number that counts in a small power of two is in range after it is multiplied by one. -/
theorem isInf_mul_one (sign : Sign) {m : Nat} {e : Int} (hm : 0 < m) (hlt : m < 2 ^ 53)
    (he : e ≤ 1) :
    (Float.Model.pack (UnpackedFloat.mul Format.binary64 (.finite sign m e hm)
      (.finite .positive (2 ^ 52) (-52) (by decide)))).unpack.isInf = false := by
  have hbits : m.log2 < 53 := (Nat.log2_lt hm.ne').mpr hlt
  have hlog : (m * 2 ^ 52).log2 + (e + -52) - 52 ≤ 1 := by
    rw [log2_mul_two_pow hm.ne']
    omega
  rw [UnpackedFloat.mul]
  obtain hzero | ⟨m', e', hm', hround, he'⟩ :=
    zero_or_exists_roundWithAccuracy (sign * .positive) (by decide) (by omega) hlog
  · rw [hzero, unpack_pack_zero]
    rfl
  · rw [hround, isInf_unpack_pack]
    exact decide_eq_false (by omega)

private theorem isInf_ofScientific_of_lt {n : Nat} (h : n < 2 ^ 53) :
    (Float.ofScientific n false 0).isInf = false := by
  have hself : n.toUInt64.toNat = n := UInt64.toNat_ofNat_of_lt' (Nat.lt_trans h (by decide))
  rw [Float.ofScientific, dif_pos ⟨h, by decide⟩]
  show (Float.Model.pack (UnpackedFloat.mul Format.binary64
    (Float.Model.pack (UnpackedFloat.normalize Format.binary64 n.toUInt64.toNat 0 .positive)).unpack
    (Float.ofBits 0x3FF0000000000000).toModel.unpack)).unpack.isInf = false
  rw [unpack_one, hself, UnpackedFloat.normalize]
  by_cases hzero : n = 0
  · rw [hzero]
    rfl
  · have hpos : 0 < n := Nat.pos_of_ne_zero hzero
    have hcompare : compare (n : Int) 0 = .gt := by
      rw [Int.compare_eq_gt]
      omega
    rw [hcompare]
    dsimp only
    rw [Int.toNat_natCast]
    obtain hround | ⟨m, e, hm, hround, he⟩ := zero_or_exists_round hpos h
    · rw [hround]
      rfl
    rw [hround]
    have hinf := isInf_unpack_pack .positive hm (e := e)
    rw [decide_eq_false (by omega)] at hinf
    -- what is packed need not come back as it was, but in no greater power of two
    cases hx : (Float.Model.pack (.finite .positive m e hm)).unpack with
    | notANumber => rfl
    | infinity sign =>
      rw [hx] at hinf
      cases hinf
    | zero sign => cases sign <;> rfl
    | finite sign m' e' hm' =>
      obtain ⟨_, _, _, heq, hlt, -⟩ := coarse_unpack hx
      injection heq with _ hmantissa
      have hle := exponent_unpack_pack_le hx
      exact isInf_mul_one sign hm' (hmantissa ▸ hlt) (by omega)

/-- A whole number of more than fifty-three bits is out of range from the middle between the
greatest double and the next power of two on. -/
theorem isInf_ofScientific_of_le {n : Nat} (h : 2 ^ 53 ≤ n) :
    (Float.ofScientific n false 0).isInf = decide (2 ^ 54 - 1 ≤ n / 2 ^ 970) := by
  have hne : n ≠ 0 := by omega
  have hsafe : (0 : Int) ≤ 2 ^ Format.binary64.exponentBits := by decide
  rw [Float.ofScientific, dif_neg (by omega)]
  show (Float.Model.pack (UnpackedFloat.ofScientific Format.binary64 n 0)).unpack.isInf = _
  rw [UnpackedFloat.ofScientific, dif_neg hne, if_neg (by decide), if_neg (by omega),
    if_pos (by decide)]
  show (Float.Model.pack (roundWithAccuracy Format.binary64 .positive (n <<< 53 * 1) (-53)
    .exact)).unpack.isInf = _
  rw [Nat.mul_one, Nat.shiftLeft_eq]
  have hm : 2 ^ 53 ≤ n * 2 ^ 53 := Nat.le_mul_of_pos_left _ (by omega)
  obtain ⟨m', e', hpos, hround, he'⟩ := exists_roundWithAccuracy .positive hm
    (e := -53) (by decide)
  rw [log2_mul_two_pow hne, Nat.add_sub_cancel] at he'
  rw [hround, isInf_unpack_pack, decide_eq_decide, he']
  have h53 := two_pow_le_div_iff hne 53 970
  have h54 := two_pow_le_div_iff hne 54 970
  rcases Nat.lt_trichotomy n.log2 1023 with hlt | heq | hgt
  · split <;> omega
  · rw [mul_two_pow_div heq]
    split <;> omega
  · split <;> omega

private theorem isInf_neg (x : Float) : (-x).isInf = x.isInf := by
  show (Float.Model.pack x.toModel.unpack.neg).unpack.isInf = x.toModel.unpack.isInf
  cases hx : x.toModel.unpack with
  | notANumber => rfl
  | infinity sign => cases sign <;> rfl
  | zero sign => cases sign <;> rfl
  | finite sign m e hm =>
    have he := exponent_le_of_unpack hx
    rw [UnpackedFloat.neg, isInf_unpack_pack]
    exact decide_eq_false (by omega)

private theorem le_div_of_length_toDigits {n : Nat} (h : 400 < (Nat.toDigits 10 n).length) :
    2 ^ 54 - 1 ≤ n / 2 ^ 970 := by
  have hlog := three_mul_le_log2 (by decide) h
  have hne : n ≠ 0 := by
    rintro rfl
    simp at hlog
  have hle := (two_pow_le_div_iff hne 54 970).mpr (by omega)
  omega

private theorem isInf_ofScientific (n : Nat) :
    (Float.ofScientific n false 0).isInf = decide (2 ^ 54 - 1 ≤ n / 2 ^ 970) := by
  by_cases h : n < 2 ^ 53
  · have hsmall : n / 2 ^ 970 ≤ n := Nat.div_le_self n _
    rw [isInf_ofScientific_of_lt h, decide_eq_false (by omega)]
  · exact isInf_ofScientific_of_le (Nat.le_of_not_lt h)

private theorem isInf_floatOfDecimal (negative : Bool) (n : Nat) :
    (floatOfDecimal negative n 0).isInf = decide (2 ^ 54 - 1 ≤ n / 2 ^ 970) := by
  have hsign (x : Float) : (if negative then -x else x).isInf = x.isInf := by
    cases negative with
    | false => rfl
    | true => exact isInf_neg x
  rw [floatOfDecimal, hsign]
  split
  · rename_i h
    obtain rfl : n = 0 := by
      simp only [Bool.or_eq_true, decide_eq_true_eq] at h
      omega
    rw [Nat.zero_div]
    show (0 : Float).toModel.unpack.isInf = _
    rw [toModel_zero]
    rfl
  · split
    · rename_i h
      rw [decide_eq_true (le_div_of_length_toDigits (by omega))]
      decide +kernel
    · exact isInf_ofScientific n

/-- An integer that is nearer to a finite double than to the next power of two: the bound is the
middle between the greatest double, `2 ^ 1024 - 2 ^ 971`, and `2 ^ 1024`. -/
def FitsDouble (n : Int) : Prop := n.natAbs < 2 ^ 1024 - 2 ^ 970

/-- **Which integers are in the range of doubles.** -/
theorem floatOfInt?_isSome_iff (n : Int) : (floatOfInt? n).isSome ↔ FitsDouble n := by
  rw [FitsDouble, ← div_two_pow_lt_iff n.natAbs 54 970, floatOfInt?, isInf_floatOfDecimal]
  split
  · rename_i h
    exact iff_of_false nofun (Nat.not_lt.mpr (of_decide_eq_true h))
  · rename_i h
    exact iff_of_true rfl (Nat.not_le.mp (decide_eq_true_iff.not.mp h))

end SceneSearch
