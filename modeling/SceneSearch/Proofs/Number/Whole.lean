import SceneSearch.Proofs.Number.Range

/-!
# Sums of whole numbers

A whole number of at most fifty-three bits has a double of its own: its leading bit is moved to the
first place of the significand, and nothing is rounded. Two of these are added by bringing them to
one power of two, where they are whole numbers again, so their sum is rounded to nothing else as
long as it has at most fifty-three bits itself. So sums of whole numbers that stay small do not
depend on the order of what is added.
-/

namespace SceneSearch

open Float.Model (Format UnpackedFloat totalExponent)
open Float.Model.UnpackedFloat

theorem eq_of_unpack_eq {x y : Float} (h : x.toModel.unpack = y.toModel.unpack) : x = y := by
  obtain ⟨⟨⟨a⟩, ha⟩⟩ := x
  obtain ⟨⟨⟨b⟩, hb⟩⟩ := y
  have hbits : a = b :=
    calc a = UnpackedFloat.pack Format.binary64 (UnpackedFloat.unpack Format.binary64 a) :=
          (pack_unpack_of_valid ha).symm
      _ = UnpackedFloat.pack Format.binary64 (UnpackedFloat.unpack Format.binary64 b) :=
          congrArg _ h
      _ = b := pack_unpack_of_valid hb
  subst hbits
  rfl

/-! ## Rounding nothing -/

theorem roundedMantissa_shiftRight (m j : Nat) :
    (ExtendedMantissa.ofMantissaAndAccuracy (m * 2 ^ j) .exact >>> j).roundedMantissa = m := by
  cases j with
  | zero =>
    rw [Nat.pow_zero, Nat.mul_one]
    rfl
  | succ j =>
    have hlow : m * 2 ^ (j + 1) = m * 2 * 2 ^ j := by rw [Nat.pow_succ', Nat.mul_assoc]
    rw [ofMantissa_shiftRight, Nat.mul_div_cancel _ (Nat.two_pow_pos _), hlow,
      Nat.mul_div_cancel _ (Nat.two_pow_pos _), Nat.mul_mod_left, Nat.mul_mod_left]
    rfl

theorem roundWithAccuracy_full (sign : Sign) {m j : Nat} {e : Int} (hm : 2 ^ 52 ≤ m)
    (hlt : m < 2 ^ 53) (he : -1074 ≤ e) :
    roundWithAccuracy Format.binary64 sign (m * 2 ^ j) e .exact =
      .finite sign m (e + j) (Nat.lt_of_lt_of_le (by decide) hm) := by
  have hbits : m.log2 = 52 := (Nat.log2_eq_iff (by omega)).mpr ⟨hm, hlt⟩
  have hlog : (m * 2 ^ j).log2 - 52 = j := by
    rw [log2_mul_two_pow (by omega), hbits]
    omega
  rw [roundWithAccuracy, shiftToTargetExponent_eq _ he, hlog]
  dsimp only
  rw [roundedMantissa_shiftRight]
  have hmantissa : (shiftToTargetExponent Format.binary64 m (e + j) .exact).1.mantissa = m := by
    rw [mantissa_shiftToTargetExponent (by omega), hbits, Nat.sub_self, Nat.pow_zero, Nat.div_one]
  have hexponent : (shiftToTargetExponent Format.binary64 m (e + j) .exact).2 = e + j := by
    rw [exponent_shiftToTargetExponent, hbits]
    omega
  rw [dif_neg (by omega)]
  congr

/-- The significand of a whole number: its leading bit has the first of fifty-three places. -/
def fullMantissa (n : Nat) : Nat := n * 2 ^ (52 - n.log2)

theorem fullMantissa_bounds {n : Nat} (hpos : 0 < n) (hn : n < 2 ^ 53) :
    2 ^ 52 ≤ fullMantissa n ∧ fullMantissa n < 2 ^ 53 := by
  have hlog : n.log2 < 53 := (Nat.log2_lt hpos.ne').mpr hn
  have hbits : (fullMantissa n).log2 = 52 := by
    rw [fullMantissa, log2_mul_two_pow hpos.ne']
    omega
  have hne : fullMantissa n ≠ 0 := Nat.mul_ne_zero hpos.ne' (Nat.two_pow_pos _).ne'
  exact (Nat.log2_eq_iff hne).mp hbits

/-- In whichever small power of two a whole number counts, it is rounded to its significand. -/
theorem round_whole (sign : Sign) {n k : Nat} (hpos : 0 < n) (hn : n < 2 ^ 53) (hk : k ≤ 1074) :
    UnpackedFloat.round Format.binary64 sign (n * 2 ^ k) (-k : Int) =
      .finite sign (fullMantissa n) (n.log2 - 52 : Int)
        (Nat.lt_of_lt_of_le (by decide) (fullMantissa_bounds hpos hn).1) := by
  have hlog : n.log2 < 53 := (Nat.log2_lt hpos.ne').mpr hn
  obtain ⟨hm, hlt⟩ := fullMantissa_bounds hpos hn
  have hscale : n * 2 ^ k * 2 ^ (52 - n.log2 - k) = fullMantissa n * 2 ^ (k - (52 - n.log2)) := by
    rw [fullMantissa, Nat.mul_assoc, Nat.mul_assoc, ← Nat.pow_add, ← Nat.pow_add]
    congr 2
    omega
  have hshift : (-(k : Int) -
      max (((n.log2 + k : Nat) : Int) + 1 + -(k : Int) - 53) (-1074)).toNat = 52 - n.log2 - k := by
    omega
  rw [UnpackedFloat.round, decreaseExponent, targetExponent_eq, totalExponent,
    log2_mul_two_pow hpos.ne']
  dsimp only
  rw [Nat.shiftLeft_eq, hshift, hscale, roundWithAccuracy_full sign hm hlt (by omega)]
  congr
  omega

/-! ## Doubles of whole numbers -/

def signOfInt (n : Int) : Sign := if n < 0 then .negative else .positive

private theorem apply_signOfInt (n : Int) : (signOfInt n).apply n.natAbs = n := by
  rw [signOfInt]
  split
  · show -(n.natAbs : Int) = n
    omega
  · show (n.natAbs : Int) = n
    omega

/-- What the double of a whole number is unpacked to. -/
def wholeOf (n : Int) (h : n.natAbs < 2 ^ 53) : UnpackedFloat :=
  if hzero : n = 0 then .zero .positive
  else .finite (signOfInt n) (fullMantissa n.natAbs) (n.natAbs.log2 - 52)
    (Nat.lt_of_lt_of_le (by decide) (fullMantissa_bounds (Int.natAbs_pos.mpr hzero) h).1)

/-- A whole number that counts in a small power of two is normalized to what it is. -/
theorem normalize_whole {n : Int} (h : n.natAbs < 2 ^ 53) {k : Nat} (hk : k ≤ 1074) :
    UnpackedFloat.normalize Format.binary64 (n * 2 ^ k) (-k : Int) .positive = wholeOf n h := by
  have hpow : (0 : Int) < 2 ^ k := Int.pow_pos (by decide)
  rcases Int.lt_trichotomy n 0 with hneg | rfl | hpos
  · have hcompare : compare (n * 2 ^ k) 0 = .lt :=
      Int.compare_eq_lt.mpr (Int.mul_neg_of_neg_of_pos hneg hpow)
    have habs : (-(n * 2 ^ k)).toNat = n.natAbs * 2 ^ k := by
      have hpos : 0 ≤ -(n * 2 ^ k) := by
        rw [← Int.neg_mul]
        exact (Int.mul_pos (by omega) hpow).le
      rw [← Int.natAbs_of_nonneg hpos, Int.toNat_natCast, Int.natAbs_neg, Int.natAbs_mul,
        Int.natAbs_pow]
      rfl
    rw [UnpackedFloat.normalize, hcompare]
    dsimp only
    rw [habs, round_whole _ (by omega) h hk, wholeOf, dif_neg (by omega), signOfInt, if_pos hneg]
  · rw [Int.zero_mul]
    rfl
  · have hcompare : compare (n * 2 ^ k) 0 = .gt := Int.compare_eq_gt.mpr (Int.mul_pos hpos hpow)
    have habs : (n * 2 ^ k).toNat = n.natAbs * 2 ^ k := by
      rw [← Int.natAbs_of_nonneg (Int.mul_pos hpos hpow).le, Int.toNat_natCast, Int.natAbs_mul,
        Int.natAbs_pow]
      rfl
    rw [UnpackedFloat.normalize, hcompare]
    dsimp only
    rw [habs, round_whole _ (by omega) h hk, wholeOf, dif_neg (by omega), signOfInt,
      if_neg (by omega)]

private theorem toNat_append_ofNat {m : Nat} (hm : 2 ^ 52 ≤ m) (hlt : m < 2 ^ 53) :
    (1#1 ++ BitVec.ofNat 52 m).toNat = m := by
  have hlow : (BitVec.ofNat 52 m).toNat = m - 2 ^ 52 := by
    rw [BitVec.toNat_ofNat]
    omega
  rw [BitVec.toNat_append, ← Nat.shiftLeft_add_eq_or_of_lt (BitVec.isLt _), hlow]
  show 1 <<< 52 + (m - 2 ^ 52) = m
  omega

theorem unpack_pack_full (sign : Sign) {m : Nat} {e : Int} (hm : 2 ^ 52 ≤ m) (hlt : m < 2 ^ 53)
    (he : -1074 ≤ e) (he' : e ≤ 971) (hpos : 0 < m) :
    (Float.Model.pack (.finite sign m e hpos)).unpack = .finite sign m e hpos := by
  show UnpackedFloat.unpack _ (UnpackedFloat.pack Format.binary64 _) = _
  have hbits : m.log2 = 52 := (Nat.log2_eq_iff (by omega)).mpr ⟨hm, hlt⟩
  have hexponent : (BitVec.ofNat 11 (e + 1023 + 52).toNat).toNat = (e + 1023 + 52).toNat := by
    rw [BitVec.toNat_ofNat, Nat.mod_eq_of_lt (by omega)]
  rw [pack_finite, if_neg (by omega), if_pos (by omega)]
  simp only [UnpackedFloat.unpack, unpackMantissa_packComponents, unpackExponent_packComponents,
    unpackSign_packComponents, ofBitVec_toBitVec]
  -- the exponent is neither the first nor the last one
  rw [if_neg, if_neg]
  · congr 1
    · exact toNat_append_ofNat hm hlt
    · rw [hexponent]
      show _ - (1023 + 52 : Int) = _
      omega
  · intro hfirst
    have hzero : (e + 1023 + 52).toNat = 0 := hexponent.symm.trans (congrArg BitVec.toNat hfirst)
    omega
  · intro hlast
    have hall : (e + 1023 + 52).toNat = 2047 := hexponent.symm.trans (congrArg BitVec.toNat hlast)
    omega

theorem unpack_pack_whole {n : Int} (h : n.natAbs < 2 ^ 53) :
    (Float.Model.pack (wholeOf n h)).unpack = wholeOf n h := by
  rw [wholeOf]
  split
  · exact unpack_pack_zero .positive
  · rename_i hzero
    obtain ⟨hm, hlt⟩ := fullMantissa_bounds (Int.natAbs_pos.mpr hzero) h
    have hlog : n.natAbs.log2 < 53 := (Nat.log2_lt (Int.natAbs_pos.mpr hzero).ne').mpr h
    exact unpack_pack_full _ hm hlt (by omega) (by omega) _

private theorem mul_one_whole {n : Int} (h : n.natAbs < 2 ^ 53) :
    UnpackedFloat.mul Format.binary64 (wholeOf n h)
      (.finite .positive (2 ^ 52) (-52) (by decide)) = wholeOf n h := by
  by_cases hzero : n = 0
  · subst hzero
    rfl
  · have hpos : 0 < n.natAbs := Int.natAbs_pos.mpr hzero
    obtain ⟨hm, hlt⟩ := fullMantissa_bounds hpos h
    have hlog : n.natAbs.log2 < 53 := (Nat.log2_lt hpos.ne').mpr h
    have hsign : signOfInt n * .positive = signOfInt n := by cases signOfInt n <;> rfl
    rw [wholeOf, dif_neg hzero, UnpackedFloat.mul, hsign,
      roundWithAccuracy_full _ hm hlt (by omega)]
    congr 1
    omega

theorem unpack_ofNat {n : Nat} (h : (n : Int).natAbs < 2 ^ 53) :
    (Float.ofNat n).toModel.unpack = wholeOf n h := by
  have hlt : n < 2 ^ 53 := h
  have hself : n.toUInt64.toNat = n := UInt64.toNat_ofNat_of_lt' (Nat.lt_trans hlt (by decide))
  have hnormal := normalize_whole h (k := 0) (by decide)
  rw [Int.pow_zero, Int.mul_one] at hnormal
  show (Float.ofScientific n false 0).toModel.unpack = _
  rw [Float.ofScientific, dif_pos ⟨hlt, by decide⟩]
  -- it is multiplied by a power of ten, which is one
  show (Float.Model.pack (UnpackedFloat.mul Format.binary64
    (Float.Model.pack (UnpackedFloat.normalize Format.binary64 n.toUInt64.toNat
      (-(0 : Nat) : Int) .positive)).unpack
    (Float.ofBits 0x3FF0000000000000).toModel.unpack)).unpack = _
  rw [unpack_one, hself, hnormal, unpack_pack_whole, mul_one_whole, unpack_pack_whole]

private theorem neg_wholeOf {n : Int} (h : n.natAbs < 2 ^ 53) (hne : n ≠ 0) :
    (wholeOf n h).neg = wholeOf (-n) (by rwa [Int.natAbs_neg]) := by
  have hsign : -signOfInt n = signOfInt (-n) := by
    rw [signOfInt, signOfInt]
    split
    · rw [if_neg (by omega)]
      rfl
    · rw [if_pos (by omega)]
      rfl
  rw [wholeOf, wholeOf, dif_neg hne, dif_neg (by omega), UnpackedFloat.neg, hsign]
  simp only [Int.natAbs_neg]

theorem unpack_ofInt {n : Int} (h : n.natAbs < 2 ^ 53) :
    (Float.ofInt n).toModel.unpack = wholeOf n h := by
  match n with
  | .ofNat n => exact unpack_ofNat h
  | .negSucc n =>
    show (Float.Model.pack (Float.ofNat n.succ).toModel.unpack.neg).unpack = _
    rw [unpack_ofNat (n := n.succ) h, neg_wholeOf _ (by omega)]
    exact unpack_pack_whole h

/-! ## Sums -/

/-- In a small power of two the significand of a whole number is a whole number. -/
theorem apply_fullMantissa {n : Int} {k : Nat} (hn : n.natAbs.log2 < 53)
    (hk : 52 - n.natAbs.log2 ≤ k) :
    (signOfInt n).apply
        ((fullMantissa n.natAbs <<< ((n.natAbs.log2 : Int) - 52 - -(k : Int)).toNat : Nat) : Int) =
      n * 2 ^ k := by
  have hscale : 2 ^ (52 - n.natAbs.log2) * 2 ^ ((n.natAbs.log2 : Int) - 52 - -(k : Int)).toNat =
      2 ^ k := by
    rw [← Nat.pow_add]
    congr 1
    omega
  have hmantissa : fullMantissa n.natAbs <<< ((n.natAbs.log2 : Int) - 52 - -(k : Int)).toNat =
      n.natAbs <<< k := by
    rw [Nat.shiftLeft_eq, Nat.shiftLeft_eq, fullMantissa, Nat.mul_assoc, hscale]
  rw [hmantissa, apply_shiftLeft, apply_signOfInt]

theorem zero_add_finite {s : Sign} {m : Nat} {e : Int} (h : 0 < m) :
    UnpackedFloat.add Format.binary64 (.zero .positive) (.finite s m e h) = .finite s m e h := rfl

theorem add_zero_finite {s : Sign} {m : Nat} {e : Int} (h : 0 < m) :
    UnpackedFloat.add Format.binary64 (.finite s m e h) (.zero .positive) = .finite s m e h := rfl

private theorem add_wholeOf {m n : Int} (hm : m.natAbs < 2 ^ 53) (hn : n.natAbs < 2 ^ 53)
    (h : (m + n).natAbs < 2 ^ 53) :
    UnpackedFloat.add Format.binary64 (wholeOf m hm) (wholeOf n hn) = wholeOf (m + n) h := by
  by_cases hzero : m = 0
  · subst hzero
    by_cases hzero' : n = 0
    · subst hzero'
      rfl
    · simp only [Int.zero_add, wholeOf, dif_pos, dif_neg hzero', zero_add_finite]
  · by_cases hzero' : n = 0
    · subst hzero'
      simp only [Int.add_zero, wholeOf, dif_pos, dif_neg hzero, add_zero_finite]
    · have hlog : m.natAbs.log2 < 53 := (Nat.log2_lt (Int.natAbs_pos.mpr hzero).ne').mpr hm
      have hlog' : n.natAbs.log2 < 53 := (Nat.log2_lt (Int.natAbs_pos.mpr hzero').ne').mpr hn
      -- the power of two that both are brought to
      obtain ⟨k, hk⟩ : ∃ k : Nat, min ((m.natAbs.log2 : Int) - 52) (n.natAbs.log2 - 52) = -k :=
        ⟨52 - min m.natAbs.log2 n.natAbs.log2, by omega⟩
      rw [wholeOf, wholeOf, dif_neg hzero, dif_neg hzero', UnpackedFloat.add]
      dsimp only [decreaseExponent]
      rw [hk, apply_fullMantissa hlog (by omega), apply_fullMantissa hlog' (by omega),
        ← Int.add_mul, normalize_whole h (by omega)]

/-- **Sums of small whole numbers are exact.** -/
theorem ofInt_add_ofInt {m n : Int} (hm : m.natAbs < 2 ^ 53) (hn : n.natAbs < 2 ^ 53)
    (h : (m + n).natAbs < 2 ^ 53) : Float.ofInt m + Float.ofInt n = Float.ofInt (m + n) := by
  refine eq_of_unpack_eq ?_
  show (Float.Model.pack (UnpackedFloat.add Format.binary64 (Float.ofInt m).toModel.unpack
    (Float.ofInt n).toModel.unpack)).unpack = _
  rw [unpack_ofInt hm, unpack_ofInt hn, unpack_ofInt h, add_wholeOf hm hn h, unpack_pack_whole]

/-- So are sums of many of them, if even their absolute values have a small sum. -/
theorem foldl_ofInt {ns : List Int} {start : Int}
    (h : start.natAbs + (ns.map Int.natAbs).sum < 2 ^ 53) :
    (ns.map Float.ofInt).foldl (· + ·) (Float.ofInt start) = Float.ofInt (start + ns.sum) := by
  induction ns generalizing start with
  | nil => rw [List.map_nil, List.foldl_nil, List.sum_nil, Int.add_zero]
  | cons n rest ih =>
    rw [List.map_cons, List.sum_cons] at h
    rw [List.map_cons, List.foldl_cons, ofInt_add_ofInt (by omega) (by omega) (by omega),
      ih (by omega), List.sum_cons, Int.add_assoc]

/-! ## Doubles that are whole numbers -/

private theorem isNothing_ofInt {n : Int} (h : n.natAbs < 2 ^ 53) :
    isNothing (Float.ofInt n) = true ↔ n = 0 := by
  rw [isNothing_eq, beq_iff_eq, unpack_ofInt h, wholeOf]
  split
  · rename_i hzero
    exact iff_of_true rfl hzero
  · rename_i hne
    have hside : sideOf (signOfInt n) ≠ .eq := by cases signOfInt n <;> decide
    rw [side?_finite, Option.some.injEq]
    exact iff_of_false hside hne

/-- A double that is a whole number is read as this number, also if it is the zero below zero. -/
theorem orElseFloat_zero_eq_ofInt {x : Float} {n : Int} (h : n.natAbs < 2 ^ 53)
    (hx : (x == Float.ofInt n) = true) : orElseFloat x 0 = Float.ofInt n := by
  have hzeros : isNothing 0 = true ∧ isNothing (-0) = true := by decide
  have hzero : isNothing (Float.ofInt n) = true → Float.ofInt n = 0 := fun hnothing ↦ by
    rw [(isNothing_ofInt h).mp hnothing]
    rfl
  rw [orElseFloat]
  obtain ⟨-, -, rfl | ⟨rfl, heq⟩ | ⟨rfl, heq⟩⟩ := Float.beq_iff_ne_nan_and_eq.mp hx
  · split
    · rename_i hnothing
      exact (hzero hnothing).symm
    · rfl
  · rw [if_pos hzeros.1, hzero (heq ▸ hzeros.2)]
  · rw [if_pos hzeros.2, heq]

end SceneSearch
