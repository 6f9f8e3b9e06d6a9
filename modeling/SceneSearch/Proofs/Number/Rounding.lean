import SceneSearch.Proofs.Number.Level

/-!
# Differences in order

Of two doubles the one that is not above the other does not differ more from a third one, although
differences are rounded and may be out of range. For every finite double is a whole number of times
the least positive one. The exact difference is such a number as well, and it is rounded to the
fifty-three leading bits that there is room for, `unitsOf_sub`. Rounding keeps the order of numbers,
and so does putting at infinity whatever is out of range.
-/

namespace SceneSearch

open Float.Model (Format UnpackedFloat totalExponent)
open Float.Model.UnpackedFloat

variable {m n k : Nat}

/-! ## The nearest number -/

/-- A number without its last bits: the nearest one, and of two that are as near the even one. -/
def nearest (n k : Nat) : Nat :=
  (ExtendedMantissa.ofMantissaAndAccuracy n .exact >>> k).roundedMantissa

theorem div_le_nearest (n k : Nat) : n / 2 ^ k ≤ nearest n k := by
  refine Nat.le_trans (Nat.le_of_eq ?_) (le_roundedMantissa _)
  rw [mantissa_shiftRight, mantissa_ofMantissaAndAccuracy]

theorem nearest_le (n k : Nat) : nearest n k ≤ n / 2 ^ k + 1 := by
  refine Nat.le_trans (roundedMantissa_le _) (Nat.le_of_eq ?_)
  rw [mantissa_shiftRight, mantissa_ofMantissaAndAccuracy]

theorem nearest_zero (n : Nat) : nearest n 0 = n := rfl

private theorem nearest_mul_two_pow (n k j : Nat) : nearest (n * 2 ^ j) (k + j) = nearest n k := by
  cases k with
  | zero =>
    rw [Nat.zero_add, nearest_zero]
    exact roundedMantissa_shiftRight n j
  | succ k =>
    have hj : 0 < 2 ^ j := Nat.two_pow_pos j
    rw [nearest, nearest, Nat.add_right_comm, ofMantissa_shiftRight, ofMantissa_shiftRight,
      mul_two_pow_div (Nat.add_right_comm k j 1), mul_two_pow_div rfl, Nat.pow_add 2 k j,
      Nat.mul_mod_mul_right]
    congr 2
    rw [Bool.eq_iff_iff, bne_iff_ne, bne_iff_ne, ne_eq, ne_eq, Nat.mul_eq_zero]
    exact not_congr (or_iff_left hj.ne')

/-- **Rounding to the nearest keeps the order of numbers.** -/
theorem nearest_mono (h : m ≤ n) (k : Nat) : nearest m k ≤ nearest n k := by
  cases k with
  | zero => exact h
  | succ k =>
    rcases Nat.lt_or_eq_of_le (Nat.div_le_div_right (c := 2 ^ (k + 1)) h) with hlt | heq
    · calc nearest m (k + 1) ≤ m / 2 ^ (k + 1) + 1 := nearest_le m (k + 1)
        _ ≤ n / 2 ^ (k + 1) := hlt
        _ ≤ nearest n (k + 1) := div_le_nearest n (k + 1)
    · -- of numbers with the same leading bits the greater one has the greater rest
      have hdiv : m / 2 ^ k ≤ n / 2 ^ k := Nat.div_le_div_right h
      have hrest : m / 2 ^ k = n / 2 ^ k → m % 2 ^ k ≤ n % 2 ^ k := fun hsame ↦ by
        have hm := Nat.div_add_mod m (2 ^ k)
        have hn := Nat.div_add_mod n (2 ^ k)
        rw [hsame] at hm
        omega
      rw [nearest, nearest, ofMantissa_shiftRight, ofMantissa_shiftRight, roundedMantissa_mk,
        roundedMantissa_mk, heq]
      rw [Nat.pow_succ, ← Nat.div_div_eq_div_mul, ← Nat.div_div_eq_div_mul] at heq
      generalize m / 2 ^ k = a at *
      generalize n / 2 ^ k = b at *
      generalize m % 2 ^ k = c at *
      generalize n % 2 ^ k = d at *
      simp only [bne_iff_ne, ne_eq]
      split <;> split <;> (try split) <;> (try split) <;> omega

/-! ## Fifty-three bits -/

/-- A number rounded to its fifty-three leading bits. -/
def rounded (n : Nat) : Nat := nearest n (n.log2 - 52) * 2 ^ (n.log2 - 52)

theorem rounded_of_lt (h : n < 2 ^ 53) : rounded n = n := by
  have hshift : n.log2 - 52 = 0 := by
    by_cases hzero : n = 0
    · rw [hzero, Nat.log2_zero]
    · have hbits := (Nat.log2_lt hzero).mpr h
      omega
  rw [rounded, hshift, nearest_zero, Nat.pow_zero, Nat.mul_one]

theorem rounded_mul_two_pow (n j : Nat) : rounded (n * 2 ^ j) = rounded n * 2 ^ j := by
  by_cases hzero : n = 0
  · rw [hzero, Nat.zero_mul, rounded_of_lt (Nat.two_pow_pos 53), Nat.zero_mul]
  rw [rounded, log2_mul_two_pow hzero]
  rcases Nat.le_total 52 n.log2 with hfull | hfew
  · have hshift : n.log2 + j - 52 = n.log2 - 52 + j := by omega
    rw [hshift, nearest_mul_two_pow, rounded, Nat.mul_assoc, ← Nat.pow_add]
  · -- only zeros are left out, if anything is
    obtain ⟨i, hi⟩ : ∃ i, j = i + (n.log2 + j - 52) := ⟨j - (n.log2 + j - 52), by omega⟩
    generalize hk : n.log2 + j - 52 = k at *
    have hbits : n < 2 ^ 53 := (Nat.log2_lt hzero).mp (by omega)
    have hzeros := nearest_mul_two_pow (n * 2 ^ i) 0 k
    rw [Nat.zero_add, nearest_zero, Nat.mul_assoc, ← Nat.pow_add] at hzeros
    rw [rounded_of_lt hbits, hi, hzeros, Nat.pow_add, Nat.mul_assoc]

theorem nearest_le_two_pow (n : Nat) : nearest n (n.log2 - 52) ≤ 2 ^ 53 := by
  rcases Nat.eq_zero_or_pos n with rfl | hpos
  · exact Nat.zero_le _
  · exact Nat.le_trans (nearest_le n _) (shifted_bounds hpos).2

theorem two_pow_le_nearest (h : 2 ^ 52 ≤ n) : 2 ^ 52 ≤ nearest n (n.log2 - 52) := by
  have hne : n ≠ 0 := by omega
  have hbits := (Nat.le_log2 hne).mpr h
  refine Nat.le_trans ((two_pow_le_div_iff hne 52 _).mpr ?_) (div_le_nearest n _)
  omega

/-- **Rounding to fifty-three bits keeps the order of numbers.** -/
theorem rounded_mono (h : m ≤ n) : rounded m ≤ rounded n := by
  rcases Nat.lt_or_ge (m.log2 - 52) (n.log2 - 52) with hlt | hge
  · have hfull : 2 ^ 52 ≤ n := (Nat.le_log2 (k := 52) (by rintro rfl; simp at hlt)).mp (by omega)
    calc rounded m ≤ 2 ^ 53 * 2 ^ (m.log2 - 52) := Nat.mul_le_mul_right _ (nearest_le_two_pow m)
      _ = 2 ^ 52 * 2 ^ (m.log2 - 52 + 1) := by rw [Nat.pow_succ 2 (m.log2 - 52)]; omega
      _ ≤ 2 ^ 52 * 2 ^ (n.log2 - 52) :=
        Nat.mul_le_mul_left _ (Nat.pow_le_pow_right (by decide) hlt)
      _ ≤ rounded n := Nat.mul_le_mul_right _ (two_pow_le_nearest hfull)
  · rcases Nat.eq_zero_or_pos m with rfl | hpos
    · rw [rounded_of_lt (Nat.two_pow_pos 53)]
      exact Nat.zero_le _
    · have hlog : m.log2 ≤ n.log2 :=
        (Nat.le_log2 (by omega)).mpr (Nat.le_trans (Nat.log2_self_le hpos.ne') h)
      have hshift : m.log2 - 52 = n.log2 - 52 := by omega
      rw [rounded, rounded, hshift]
      exact Nat.mul_le_mul_right _ (nearest_mono h _)

/-! ## What numbers are rounded to -/

/-- The significand has fifty-three bits, or the power of two is the least one. -/
structure Canonical (m : Nat) (e : Int) : Prop where
  /-- There is room for the significand. -/
  lt : m < 2 ^ 53
  /-- The power of two is in range below. -/
  least : -1074 ≤ e
  /-- No smaller power of two would do. -/
  full : 2 ^ 52 ≤ m ∨ e = -1074

theorem two_pow_toNat_add {e : Int} (he : -1074 ≤ e) (k : Nat) :
    2 ^ (e + k + 1074).toNat = 2 ^ k * 2 ^ (e + 1074).toNat := by
  rw [← Nat.pow_add]
  congr 1
  omega

private theorem exists_roundWithAccuracy_rounded (sign : Sign) {e : Int} (hm : 0 < m)
    (he : -1074 ≤ e)
    (hfull : 2 ^ 52 ≤ m ∨ e = -1074) :
    ∃ n d h, roundWithAccuracy Format.binary64 sign m e .exact = .finite sign n d h ∧
      Canonical n d ∧ n * 2 ^ (d + 1074).toNat = rounded m * 2 ^ (e + 1074).toNat := by
  have hle := nearest_le_two_pow m
  have hpos : 0 < nearest m (m.log2 - 52) :=
    Nat.lt_of_lt_of_le (shifted_bounds hm).1 (div_le_nearest m _)
  have hfull' : 2 ^ 52 ≤ nearest m (m.log2 - 52) ∨ e + (m.log2 - 52 : Nat) = -1074 := by
    by_cases hbits : 2 ^ 52 ≤ m
    · exact Or.inl (two_pow_le_nearest hbits)
    · have hlog := (Nat.log2_lt hm.ne').mpr (Nat.lt_of_not_le hbits)
      omega
  rw [roundWithAccuracy, shiftToTargetExponent_eq m he]
  dsimp only
  rw [show (ExtendedMantissa.ofMantissaAndAccuracy m .exact >>> (m.log2 - 52)).roundedMantissa =
    nearest m (m.log2 - 52) from rfl, rounded, Nat.mul_assoc, ← two_pow_toNat_add he]
  have he' : -1074 ≤ e + (m.log2 - 52 : Nat) := by omega
  generalize e + (m.log2 - 52 : Nat) = c at *
  generalize nearest m (m.log2 - 52) = q at *
  have hkept := (shifted_bounds hpos).1
  rw [← mantissa_shiftToTargetExponent he' .exact] at hkept
  rw [dif_neg hkept.ne']
  refine ⟨_, _, hkept, rfl, ?_⟩
  rw [mantissa_shiftToTargetExponent he', exponent_shiftToTargetExponent]
  -- what was rounded up to a power of two has one bit too many, which is zero
  rcases Nat.lt_or_eq_of_le hle with hlt | rfl
  · have hbits := (Nat.log2_lt hpos.ne').mpr hlt
    have hshift : q.log2 - 52 = 0 := by omega
    have hexponent : max c (max (q.log2 + c - 52) (-1074)) = c := by omega
    rw [hshift, hexponent, Nat.pow_zero, Nat.div_one]
    exact ⟨⟨hlt, he', hfull'⟩, rfl⟩
  · have hexponent : max c (max (((2 ^ 53).log2 : Nat) + c - 52) (-1074)) = c + (1 : Nat) := by
      rw [Nat.log2_two_pow]
      omega
    rw [hexponent, Nat.log2_two_pow, two_pow_toNat_add he']
    refine ⟨⟨by decide, by omega, Or.inl (by decide)⟩, ?_⟩
    rw [← Nat.mul_assoc]
    rfl

/-- A number is rounded to its fifty-three leading bits, whatever power of two it counts in. -/
theorem exists_round (sign : Sign) {e : Int} (hm : 0 < m) (he : -1074 ≤ e) :
    ∃ n d h, UnpackedFloat.round Format.binary64 sign m e = .finite sign n d h ∧
      Canonical n d ∧ n * 2 ^ (d + 1074).toNat = rounded (m * 2 ^ (e + 1074).toNat) := by
  rw [UnpackedFloat.round, decreaseExponent, targetExponent_eq, totalExponent]
  dsimp only
  obtain ⟨j, hj⟩ : ∃ j : Nat, (e - max ((m.log2 : Int) + 1 + e - 53) (-1074)).toNat = j := ⟨_, rfl⟩
  have hlog := log2_mul_two_pow hm.ne' j
  have hpos : 0 < m * 2 ^ j := Nat.mul_pos hm (Nat.two_pow_pos j)
  have hfull : 2 ^ 52 ≤ m * 2 ^ j ∨ e - j = -1074 := by
    rw [← Nat.le_log2 hpos.ne', hlog]
    omega
  obtain ⟨n, d, h, hround, hcanonical, hvalue⟩ :=
    exists_roundWithAccuracy_rounded sign hpos (e := e - j) (by omega) hfull
  have hscale : e = e - j + j := by omega
  rw [hj, Nat.shiftLeft_eq]
  refine ⟨n, d, h, hround, hcanonical, ?_⟩
  rw [hvalue, rounded_mul_two_pow, rounded_mul_two_pow, Nat.mul_assoc]
  conv_rhs => rw [hscale]
  rw [two_pow_toNat_add (by omega)]

/-! ## Exact differences -/

/-- A whole number rounded to its fifty-three leading bits. -/
def roundedInt (n : Int) : Int := (signOfInt n).apply (rounded n.natAbs)

private theorem roundedInt_mono {a b : Int} (h : a ≤ b) : roundedInt a ≤ roundedInt b := by
  rw [roundedInt, roundedInt, signOfInt, signOfInt]
  split <;> split
  · have hle : rounded b.natAbs ≤ rounded a.natAbs := rounded_mono (by omega)
    show -(rounded a.natAbs : Int) ≤ -(rounded b.natAbs : Int)
    omega
  · show -(rounded a.natAbs : Int) ≤ (rounded b.natAbs : Int)
    omega
  · omega
  · exact Int.ofNat_le.mpr (rounded_mono (by omega))

/-- A finite number as doubles have it. -/
def Proper : UnpackedFloat → Prop
  | .zero _ => True
  | .finite _ m e _ => Canonical m e
  | _ => False

private theorem proper_of_isFinite {x : Float} (hx : x.isFinite) : Proper x.toModel.unpack := by
  rcases zero_or_coarse hx with ⟨sign, hzero⟩ | ⟨sign, m, e, hm, hfinite, hlt, he⟩
  · rw [hzero]
    trivial
  · have hfull := full_or_least hfinite
    rw [hfinite]
    exact ⟨hlt, he, hfull⟩

theorem unitsOf_finite_eq (sign : Sign) (m : Nat) (e : Int) (hm : 0 < m) :
    unitsOf (.finite sign m e hm) = sign.apply ((m * 2 ^ (e + 1074).toNat : Nat) : Int) := by
  rw [unitsOf]
  cases sign with
  | negative => simp [Sign.apply]
  | positive => simp [Sign.apply]

theorem roundedInt_apply (sign : Sign) (hpos : 0 < n) :
    roundedInt (sign.apply (n : Int)) = sign.apply (rounded n : Int) := by
  have habs : (sign.apply (n : Int)).natAbs = n := by
    cases sign with
    | negative => exact Int.natAbs_neg _
    | positive => rfl
  have hsign : signOfInt (sign.apply (n : Int)) = sign := by
    cases sign with
    | negative =>
      refine if_pos ?_
      show -(n : Int) < 0
      omega
    | positive =>
      refine if_neg ?_
      show ¬(n : Int) < 0
      omega
  rw [roundedInt, habs, hsign]

private theorem roundedInt_unitsOf {u : UnpackedFloat} (hu : Proper u) :
    roundedInt (unitsOf u) = unitsOf u := by
  match u with
  | .zero _ => rfl
  | .finite sign m e hm =>
    have hpos : 0 < m * 2 ^ (e + 1074).toNat := Nat.mul_pos hm (Nat.two_pow_pos _)
    rw [unitsOf_finite_eq, roundedInt_apply sign hpos, rounded_mul_two_pow, rounded_of_lt hu.lt]
  | .infinity _ => exact hu.elim
  | .notANumber => exact hu.elim

private theorem proper_round (sign : Sign) {e : Int} (hm : 0 < m) (he : -1074 ≤ e) :
    Proper (UnpackedFloat.round Format.binary64 sign m e) ∧
      unitsOf (UnpackedFloat.round Format.binary64 sign m e) =
        roundedInt (sign.apply (m : Int) * 2 ^ (e + 1074).toNat) := by
  obtain ⟨n, d, h, hround, hcanonical, hvalue⟩ := exists_round sign hm he
  have hpos : 0 < m * 2 ^ (e + 1074).toNat := Nat.mul_pos hm (Nat.two_pow_pos _)
  have hexact : sign.apply (m : Int) * 2 ^ (e + 1074).toNat =
      sign.apply ((m * 2 ^ (e + 1074).toNat : Nat) : Int) := unitsOf_finite_eq sign m e hm
  rw [hround, unitsOf_finite_eq, hvalue, hexact, roundedInt_apply sign hpos]
  exact ⟨hcanonical, rfl⟩

private theorem proper_normalize (a : Int) {e : Int} (he : -1074 ≤ e) :
    Proper (UnpackedFloat.normalize Format.binary64 a e .positive) ∧
      unitsOf (UnpackedFloat.normalize Format.binary64 a e .positive) =
        roundedInt (a * 2 ^ (e + 1074).toNat) := by
  rw [UnpackedFloat.normalize]
  cases hcompare : compare a 0 with
  | lt =>
    have hneg : a < 0 := Int.compare_eq_lt.mp hcompare
    have habs : Sign.negative.apply ((-a).toNat : Int) = a := by
      show -((-a).toNat : Int) = a
      omega
    have hround := proper_round .negative (m := (-a).toNat) (by omega) he
    rwa [habs] at hround
  | eq =>
    obtain rfl : a = 0 := Int.compare_eq_eq.mp hcompare
    rw [Int.zero_mul]
    exact ⟨trivial, rfl⟩
  | gt =>
    have hpos : 0 < a := Int.compare_eq_gt.mp hcompare
    have habs : Sign.positive.apply (a.toNat : Int) = a := Int.toNat_of_nonneg hpos.le
    have hround := proper_round .positive (m := a.toNat) (by omega) he
    rwa [habs] at hround

/-- **A difference is the exact one, rounded to fifty-three bits.** -/
theorem unitsOf_sub {u v : UnpackedFloat} (hu : Proper u) (hv : Proper v) :
    Proper (UnpackedFloat.sub Format.binary64 u v) ∧
      unitsOf (UnpackedFloat.sub Format.binary64 u v) = roundedInt (unitsOf u - unitsOf v) := by
  match u, v with
  | .infinity _, _ => exact hu.elim
  | .notANumber, _ => exact hu.elim
  | _, .infinity _ => exact hv.elim
  | _, .notANumber => exact hv.elim
  | .zero s, .zero t =>
    rw [UnpackedFloat.sub]
    split <;> exact ⟨trivial, rfl⟩
  | .zero s, .finite t n d hn =>
    have hneg : unitsOf (.finite (-t) n d hn) = unitsOf (.zero s) - unitsOf (.finite t n d hn) := by
      rw [unitsOf_finite_eq, unitsOf_finite_eq]
      cases t <;> simp [unitsOf, Sign.apply]
    have hproper : Proper (.finite (-t) n d hn) := hv
    exact ⟨hproper, by rw [← hneg, roundedInt_unitsOf hproper]; rfl⟩
  | .finite s m e hm, .zero t =>
    have hsame : unitsOf (.finite s m e hm) - unitsOf (.zero t) = unitsOf (.finite s m e hm) :=
      Int.sub_zero _
    exact ⟨hu, by rw [hsame, roundedInt_unitsOf hu]; rfl⟩
  | .finite s m e hm, .finite t n d hn =>
    have hleast : -1074 ≤ min e d := by
      have he := hu.least
      have hd := hv.least
      omega
    rw [unitsOf_finite (min_le_left e d) hleast, unitsOf_finite (min_le_right e d) hleast,
      ← Int.sub_mul]
    exact proper_normalize _ hleast

/-! ## Numbers out of range -/

/-- How often the least positive double has to be doubled until it is out of range. -/
def rangeBits : Nat := 2098

/-- The first power of two that is out of range, in units of the least positive double. -/
def rangeEnd : Nat := 2 ^ rangeBits

theorem rangeBits_eq : rangeBits = 2098 := rfl

private theorem rangeEnd_pos : 0 < rangeEnd := Nat.two_pow_pos rangeBits

/-- A number in units of the least positive double, and infinity as the end of the range. -/
def extentOf : UnpackedFloat → Int
  | .infinity sign => sign.apply rangeEnd
  | .finite sign m e hm => unitsOf (.finite sign m e hm)
  | _ => 0

/-- What is out of range is put at the end of it. -/
def capped (n : Int) : Int := max (-rangeEnd) (min n rangeEnd)

private theorem capped_mono {a b : Int} (h : a ≤ b) : capped a ≤ capped b := by
  rw [capped, capped]
  omega

private theorem capped_zero : capped 0 = 0 := by
  rw [capped]
  omega

private theorem capped_apply (sign : Sign) (n : Nat) :
    capped (sign.apply (n : Int)) = sign.apply ((min n rangeEnd : Nat) : Int) := by
  cases sign with
  | negative =>
    show max (-(rangeEnd : Int)) (min (-(n : Int)) rangeEnd) = -((min n rangeEnd : Nat) : Int)
    omega
  | positive =>
    show max (-(rangeEnd : Int)) (min (n : Int) rangeEnd) = ((min n rangeEnd : Nat) : Int)
    omega

/-- A number of fewer bits than there is room for comes back as it was packed. -/
theorem unpack_pack_least (sign : Sign) (hlt : m < 2 ^ 52) (hpos : 0 < m) :
    (Float.Model.pack (.finite sign m (-1074) hpos)).unpack = .finite sign m (-1074) hpos := by
  have hbits := (Nat.log2_lt hpos.ne').mpr hlt
  have hself : (BitVec.ofNat 52 m).toNat = m := by
    rw [BitVec.toNat_ofNat, Nat.mod_eq_of_lt hlt]
  have hne : BitVec.ofNat 52 m ≠ 0#52 := fun hzero ↦ by
    rw [hzero] at hself
    exact hpos.ne hself
  show UnpackedFloat.unpack _ (UnpackedFloat.pack Format.binary64 _) = _
  rw [pack_finite, if_neg (by decide), if_neg (by omega)]
  simp only [UnpackedFloat.unpack, unpackMantissa_packComponents, unpackExponent_packComponents,
    unpackSign_packComponents, ofBitVec_toBitVec]
  rw [if_neg (by decide), if_pos trivial, dif_neg hne]
  congr 1

private theorem unpack_pack_of_canonical (sign : Sign) {e : Int} (h : Canonical m e) (hpos : 0 < m)
    (he : e ≤ 971) : (Float.Model.pack (.finite sign m e hpos)).unpack = .finite sign m e hpos := by
  rcases Nat.lt_or_ge m (2 ^ 52) with hlt | hge
  · obtain rfl : e = -1074 := h.full.resolve_left (by omega)
    exact unpack_pack_least sign hlt hpos
  · exact unpack_pack_full sign hge h.lt h.least he hpos

private theorem unpack_pack_of_le (sign : Sign) {e : Int} (hpos : 0 < m) (he : 972 ≤ e) :
    (Float.Model.pack (.finite sign m e hpos)).unpack = .infinity sign := by
  show UnpackedFloat.unpack _ (UnpackedFloat.pack Format.binary64 _) = _
  rw [pack_finite, if_pos (by omega)]
  cases sign <;> rfl

theorem mul_two_pow_lt {j l : Nat} (hlt : m < 2 ^ 53) (h : 53 + j ≤ l) : m * 2 ^ j < 2 ^ l :=
  calc m * 2 ^ j < 2 ^ 53 * 2 ^ j := Nat.mul_lt_mul_of_pos_right hlt (Nat.two_pow_pos j)
    _ = 2 ^ (53 + j) := (Nat.pow_add ..).symm
    _ ≤ 2 ^ l := Nat.pow_le_pow_right (by decide) h

theorem two_pow_le_mul {j l : Nat} (hge : 2 ^ 52 ≤ m) (h : l ≤ 52 + j) : 2 ^ l ≤ m * 2 ^ j :=
  calc 2 ^ l ≤ 2 ^ (52 + j) := Nat.pow_le_pow_right (by decide) h
    _ = 2 ^ 52 * 2 ^ j := Nat.pow_add ..
    _ ≤ m * 2 ^ j := Nat.mul_le_mul_right _ hge

theorem mul_two_pow_lt_rangeEnd {e : Int} (h : Canonical m e) (he : e ≤ 971) :
    m * 2 ^ (e + 1074).toNat < rangeEnd := by
  refine mul_two_pow_lt h.lt ?_
  rw [rangeBits_eq]
  omega

/-- Packing puts at infinity what is out of range, and leaves the rest as it is. -/
theorem extentOf_unpack_pack {u : UnpackedFloat} (hu : Proper u) :
    extentOf (Float.Model.pack u).unpack = capped (unitsOf u) := by
  match u with
  | .infinity _ => exact hu.elim
  | .notANumber => exact hu.elim
  | .zero sign =>
    rw [unpack_pack_zero]
    exact capped_zero.symm
  | .finite sign m e hm =>
    rw [unitsOf_finite_eq, capped_apply]
    rcases Int.lt_or_le 971 e with hover | hle
    · have hge : rangeEnd ≤ m * 2 ^ (e + 1074).toNat := by
        refine two_pow_le_mul (hu.full.resolve_right (by omega)) ?_
        rw [rangeBits_eq]
        omega
      rw [unpack_pack_of_le sign hm hover, Nat.min_eq_right hge, extentOf]
    · have hlt := mul_two_pow_lt_rangeEnd hu hle
      rw [unpack_pack_of_canonical sign hu hm hle, Nat.min_eq_left hlt.le, extentOf,
        unitsOf_finite_eq]

/-! ## The order of numbers -/

/-- A number as a double has it: infinity, or a finite one in range. -/
def InRange : UnpackedFloat → Prop
  | .infinity _ => True
  | .zero _ => True
  | .finite _ m e _ => Canonical m e ∧ e ≤ 971
  | .notANumber => False

private theorem inRange_unpack {x : Float} (hx : x ≠ Float.nan) : InRange x.toModel.unpack := by
  match h : x.toModel.unpack with
  | .notANumber => exact absurd h (ne_nan_iff.mp hx)
  | .infinity _ => trivial
  | .zero _ => trivial
  | .finite sign m e hm =>
    obtain ⟨_, _, _, heq, hlt, he⟩ := coarse_unpack h
    injection heq with _ hm he'
    subst hm he'
    exact ⟨⟨hlt, he, full_or_least h⟩, exponent_le_of_unpack h⟩

private theorem mul_two_pow_lt_mul {e d : Int} (hm : Canonical m e) (hn : Canonical n d)
    (h : ((compare e d).then (compare m n)) = .lt) :
    m * 2 ^ (e + 1074).toNat < n * 2 ^ (d + 1074).toNat := by
  rcases Ordering.then_eq_lt.mp h with hlt | ⟨heq, hlt⟩
  · have he := Int.compare_eq_lt.mp hlt
    have hleast := hm.least
    have hfull : 2 ^ 52 ≤ n := hn.full.resolve_right (by omega)
    calc m * 2 ^ (e + 1074).toNat < 2 ^ (53 + (e + 1074).toNat) := mul_two_pow_lt hm.lt (le_refl _)
      _ ≤ n * 2 ^ (d + 1074).toNat := two_pow_le_mul hfull (by omega)
  · obtain rfl := Int.compare_eq_eq.mp heq
    exact Nat.mul_lt_mul_of_pos_right (Nat.compare_eq_lt.mp hlt) (Nat.two_pow_pos _)

/-- The sign of a number, and twice that of infinity. -/
def kindOf : UnpackedFloat → Int
  | .infinity sign => sign.apply 2
  | .finite sign _ _ _ => sign.apply 1
  | _ => 0

theorem exists_levelOf_eq_cons (u : UnpackedFloat) : ∃ rest, levelOf u = kindOf u :: rest := by
  cases u <;> exact ⟨_, rfl⟩

private theorem kindOf_spec {u : UnpackedFloat} (hu : InRange u) :
    (kindOf u = -2 ∧ extentOf u = -rangeEnd) ∨
      (kindOf u = -1 ∧ -rangeEnd < extentOf u ∧ extentOf u < 0) ∨
      (kindOf u = 0 ∧ extentOf u = 0) ∨
      (kindOf u = 1 ∧ 0 < extentOf u ∧ extentOf u < rangeEnd) ∨
      (kindOf u = 2 ∧ extentOf u = rangeEnd) := by
  match u with
  | .notANumber => exact hu.elim
  | .zero _ => exact Or.inr (Or.inr (Or.inl ⟨rfl, rfl⟩))
  | .infinity .negative => exact Or.inl ⟨rfl, rfl⟩
  | .infinity .positive => exact Or.inr (Or.inr (Or.inr (Or.inr ⟨rfl, rfl⟩)))
  | .finite sign m e hm =>
    have hpos : 0 < m * 2 ^ (e + 1074).toNat := Nat.mul_pos hm (Nat.two_pow_pos _)
    have hlt := mul_two_pow_lt_rangeEnd hu.1 hu.2
    rw [extentOf, unitsOf_finite_eq]
    generalize m * 2 ^ (e + 1074).toNat = n at *
    cases sign with
    | negative =>
      refine Or.inr (Or.inl ⟨rfl, ?_⟩)
      show -(rangeEnd : Int) < -(n : Int) ∧ -(n : Int) < 0
      omega
    | positive =>
      refine Or.inr (Or.inr (Or.inr (Or.inl ⟨rfl, ?_⟩)))
      show 0 < (n : Int) ∧ (n : Int) < (rangeEnd : Int)
      omega

private theorem exists_finite_of_kindOf_eq {u v : UnpackedFloat} (hkind : kindOf u = kindOf v)
    (h : compare (levelOf u) (levelOf v) = .lt) :
    ∃ sign m e hm n d hn, u = .finite sign m e hm ∧ v = .finite sign n d hn := by
  match u, v with
  | .finite .positive m e hm, .finite .positive n d hn => exact ⟨_, m, e, hm, n, d, hn, rfl, rfl⟩
  | .finite .negative m e hm, .finite .negative n d hn => exact ⟨_, m, e, hm, n, d, hn, rfl, rfl⟩
  | .infinity .positive, .infinity .positive => cases h
  | .infinity .negative, .infinity .negative => cases h
  | .zero _, .zero _ => cases h
  | .zero _, .notANumber => cases h
  | .notANumber, .zero _ => cases h
  | .notANumber, .notANumber => cases h

/-- **Numbers are compared as their extents are.** -/
theorem extentOf_lt {u v : UnpackedFloat} (hu : InRange u) (hv : InRange v)
    (h : compare (levelOf u) (levelOf v) = .lt) : extentOf u < extentOf v := by
  obtain ⟨rest, hrest⟩ := exists_levelOf_eq_cons u
  obtain ⟨rest', hrest'⟩ := exists_levelOf_eq_cons v
  have hfirst := h
  rw [hrest, hrest', List.compare_cons_cons, Ordering.then_eq_lt] at hfirst
  rcases hfirst with hlt | ⟨heq, -⟩
  · have hlt := Int.compare_eq_lt.mp hlt
    have hspec := kindOf_spec hu
    have hspec' := kindOf_spec hv
    have hend := rangeEnd_pos
    omega
  · -- only finite numbers differ within their kind
    obtain ⟨sign, m, e, hm, n, d, hn, rfl, rfl⟩ :=
      exists_finite_of_kindOf_eq (Int.compare_eq_eq.mp heq) h
    rw [levelOf, levelOf, compare_finite] at h
    rw [extentOf, extentOf, unitsOf_finite_eq, unitsOf_finite_eq]
    cases sign with
    | positive => exact Int.ofNat_lt.mpr (mul_two_pow_lt_mul hu.1 hv.1 h)
    | negative =>
      have hgt : (compare d e).then (compare n m) = .lt := by
        dsimp only at h
        rwa [Ordering.swap_then, ← Std.OrientedCmp.eq_swap, ← Std.OrientedCmp.eq_swap] at h
      exact Int.neg_lt_neg (Int.ofNat_lt.mpr (mul_two_pow_lt_mul hv.1 hu.1 hgt))

/-! ## Doubles -/

variable {x y u v w : Float}

/-- A double in units of the least positive one, and infinity as the end of the range. -/
def extent (x : Float) : Int := extentOf x.toModel.unpack

private theorem extent_lt_of_lt (hx : x ≠ Float.nan) (hy : y ≠ Float.nan) (h : x < y) :
    extent x < extent y :=
  extentOf_lt (inRange_unpack hx) (inRange_unpack hy) ((lt_iff_level hx hy).mp h)

private theorem extent_eq_of_level_eq (hx : x ≠ Float.nan) (hy : y ≠ Float.nan)
    (h : level x = level y) :
    extent x = extent y := by
  obtain ⟨-, -, rfl | ⟨rfl, rfl⟩ | ⟨rfl, rfl⟩⟩ :=
    Float.beq_iff_ne_nan_and_eq.mp ((beq_iff_level hx hy).mpr h)
  · rfl
  · rw [extent, extent, toModel_zero, unpack_negZero]
    rfl
  · rw [extent, extent, toModel_zero, unpack_negZero]
    rfl

theorem lt_iff_extent (hx : x ≠ Float.nan) (hy : y ≠ Float.nan) : x < y ↔ extent x < extent y := by
  refine ⟨extent_lt_of_lt hx hy, fun h ↦ ?_⟩
  rw [lt_iff_level hx hy]
  match hcompare : compare (level x) (level y) with
  | .lt => rfl
  | .eq =>
    have heq := extent_eq_of_level_eq hx hy (Std.LawfulEqOrd.eq_of_compare hcompare)
    omega
  | .gt =>
    have hlt := (lt_iff_level hy hx).mpr (Std.OrientedCmp.lt_of_gt hcompare)
    have hgt := extent_lt_of_lt hy hx hlt
    omega

theorem le_iff_extent (hx : x ≠ Float.nan) (hy : y ≠ Float.nan) : x ≤ y ↔ extent x ≤ extent y := by
  rw [le_iff_not_lt hx hy, lt_iff_extent hy hx, Int.not_lt]

theorem extent_eq_units (hx : x.isFinite) : extent x = units x := by
  rcases zero_or_coarse hx with ⟨sign, hzero⟩ | ⟨sign, m, e, hm, hfinite, -⟩
  · rw [extent, units, hzero]
    rfl
  · rw [extent, units, hfinite]
    rfl

theorem sub_ne_nan (hu : u.isFinite) (hw : w.isFinite) : u - w ≠ Float.nan := by
  refine ne_nan_iff.mpr fun hnan ↦ ?_
  have hside := side?_sub hu hw
  rw [show (u - w).toModel = u.toModel - w.toModel from rfl] at hnan
  rw [hnan] at hside
  cases hside

/-- **The difference of finite doubles** is the exact one, rounded and cut off. -/
theorem extent_sub (hu : u.isFinite) (hw : w.isFinite) :
    extent (u - w) = capped (roundedInt (units u - units w)) := by
  obtain ⟨hproper, hunits⟩ := unitsOf_sub (proper_of_isFinite hu) (proper_of_isFinite hw)
  rw [units, units, ← hunits]
  exact extentOf_unpack_pack hproper

/-- **Differences are in order**: of two finite doubles the one that is not above the other is not
further above a third one either. -/
theorem extent_sub_mono (hu : u.isFinite) (hv : v.isFinite) (hw : w.isFinite)
    (h : extent u ≤ extent v) : extent (u - w) ≤ extent (v - w) := by
  rw [extent_eq_units hu, extent_eq_units hv] at h
  rw [extent_sub hu hw, extent_sub hv hw]
  exact capped_mono (roundedInt_mono (by omega))

end SceneSearch
