import ManifestTree.Proofs.NumberText

/-!
# Reading a decimal gives the nearest number

A ratio is divided by the power of two that the last bit of the result stands for, and the quotient
is rounded to a natural. The magnitude put together from both has an interval that holds the ratio,
also where the quotient is rounded up to the next power of two. As no ratio rounds to two
magnitudes, a decimal is read as the number that it rounds to, and the text of a finite number is
read as that number. Ratios beyond the greatest finite number are not looked at.
-/

namespace ManifestTree

namespace Binary64

/-! ## Rounding to a natural -/

/-- A natural is nearest to a ratio; a half between two naturals counts for the even one. -/
structure Nearest (n : ℕ) (q : ℚ) : Prop where
  low_le : (n : ℚ) - 1 / 2 ≤ q
  le_high : q ≤ n + 1 / 2
  inside : n % 2 = 1 → (n : ℚ) - 1 / 2 < q ∧ q < n + 1 / 2

/-- A natural that a ratio does not lie below does not lie above the nearest one. -/
theorem Nearest.le_of_le {n m : ℕ} {q : ℚ} (h : Nearest n q) (hm : (m : ℚ) ≤ q) : m ≤ n := by
  have hnext : (m : ℚ) < (n + 1 : ℕ) := by
    calc
      _ ≤ (n : ℚ) + 1 / 2 := hm.trans h.le_high
      _ < n + 1 := by linarith
      _ = (n + 1 : ℕ) := (Nat.cast_succ n).symm
  exact Nat.lt_succ_iff.mp (Nat.cast_lt.mp hnext)

theorem Nearest.le_of_lt {n m : ℕ} {q : ℚ} (h : Nearest n q) (hm : q < m) : n ≤ m := by
  have hnext : (n : ℚ) < (m + 1 : ℕ) := by
    calc
      _ ≤ q + 1 / 2 := by linarith [h.low_le]
      _ < m + 1 := by linarith
      _ = (m + 1 : ℕ) := (Nat.cast_succ m).symm
  exact Nat.lt_succ_iff.mp (Nat.cast_lt.mp hnext)

theorem nearest_roundDiv (num : ℕ) {den : ℕ} (hden : 0 < den) :
    Nearest (roundDiv num den) (num / den) := by
  have hden' : (0 : ℚ) < den := by exact_mod_cast hden
  have hparts : (num : ℚ) / den = (num / den : ℕ) + (num % den : ℕ) / den := by
    have hnum : (num : ℚ) = (num / den : ℕ) * den + (num % den : ℕ) := by
      exact_mod_cast (Nat.div_add_mod' num den).symm
    rw [← mul_div_cancel_right₀ ((num / den : ℕ) : ℚ) hden'.ne', ← add_div, ← hnum]
  have hrest : (num % den : ℕ) / (den : ℚ) < 1 := by
    rw [div_lt_one hden']
    exact_mod_cast Nat.mod_lt num hden
  have hnonneg : (0 : ℚ) ≤ (num % den : ℕ) / (den : ℚ) := by positivity
  have hhalf_le : (1 : ℚ) / 2 ≤ (num % den : ℕ) / (den : ℚ) ↔ den ≤ 2 * (num % den) := by
    rw [div_le_div_iff₀ two_pos hden', one_mul, mul_comm]
    exact_mod_cast Iff.rfl
  have hhalf_lt : (1 : ℚ) / 2 < (num % den : ℕ) / (den : ℚ) ↔ den < 2 * (num % den) := by
    rw [div_lt_div_iff₀ two_pos hden', one_mul, mul_comm]
    exact_mod_cast Iff.rfl
  rw [hparts, roundDiv]
  generalize (num % den : ℕ) / (den : ℚ) = rest at *
  split
  · next hup =>
    simp only [Bool.or_eq_true, Bool.and_eq_true, beq_iff_eq, decide_eq_true_eq] at hup
    have hle : (1 : ℚ) / 2 ≤ rest := hhalf_le.mpr (by omega)
    constructor
    · push_cast
      linarith
    · push_cast
      linarith
    · intro hodd
      have hlt : (1 : ℚ) / 2 < rest := hhalf_lt.mpr (by omega)
      push_cast
      constructor <;> linarith
  · next hdown =>
    simp only [Bool.or_eq_true, Bool.and_eq_true, beq_iff_eq, decide_eq_true_eq, not_or,
      not_and, not_lt] at hdown
    have hle : rest ≤ 1 / 2 := not_lt.mp (mt hhalf_lt.mp (by omega))
    constructor
    · linarith
    · linarith
    · intro hodd
      have hlt : rest < 1 / 2 := not_le.mp (mt hhalf_le.mp (by omega))
      constructor <;> linarith

/-! ## Rounding to a magnitude -/

section Magnitudes

variable {power size : ℕ}

theorem parts_of_lt (hsize : size < 2 * leadingBit) (hnormal : 0 < power → leadingBit ≤ size) :
    mantissa (power * leadingBit + size) = size ∧ weight (power * leadingBit + size) = power := by
  unfold mantissa weight
  rw [leadingBit_eq] at *
  split <;> omega

theorem parts_of_eq (power : ℕ) (hsize : size = 2 * leadingBit) :
    mantissa (power * leadingBit + size) = leadingBit ∧
      weight (power * leadingBit + size) = power + 1 := by
  unfold mantissa weight
  rw [leadingBit_eq] at *
  split <;> omega

theorem cast_lowUnits {magnitude : ℕ} (h : 0 < mantissa magnitude) : (lowUnits magnitude : ℚ) =
    (4 * mantissa magnitude - gapBelow magnitude) * 2 ^ weight magnitude := by
  have hgap : gapBelow magnitude ≤ 4 * mantissa magnitude := by
    unfold gapBelow
    split <;> omega
  rw [lowUnits, Nat.cast_mul, Nat.cast_sub hgap]
  push_cast
  rfl

theorem cast_highUnits (magnitude : ℕ) :
    (highUnits magnitude : ℚ) = (4 * mantissa magnitude + 2) * 2 ^ weight magnitude := by
  rw [highUnits]
  push_cast
  rfl

/-- What is at most half of the least number rounds to zero. -/
theorem roundsTo_zero_of_le {q : ℚ} (hpos : 0 ≤ q) (h : q * unitsPerOne ≤ 2) : RoundsTo 0 q where
  low_le := by
    have hlow : lowUnits 0 = 0 := rfl
    rw [hlow, Nat.cast_zero]
    exact mul_nonneg hpos (Nat.cast_nonneg _)
  le_high := h
  inside := fun h ↦ absurd h (by decide)

def inBits (magnitude : ℕ) (q : ℚ) : ℚ := q * unitsPerOne / (4 * 2 ^ weight magnitude)

section Gaps

variable {magnitude : ℕ} {q : ℚ}

theorem le_inBits_iff {bound : ℚ} :
    bound ≤ inBits magnitude q ↔ 4 * bound * 2 ^ weight magnitude ≤ q * unitsPerOne := by
  have hbit : (0 : ℚ) < 4 * 2 ^ weight magnitude := by positivity
  rw [inBits, le_div_iff₀ hbit, mul_left_comm, mul_assoc]

theorem inBits_le_iff {bound : ℚ} :
    inBits magnitude q ≤ bound ↔ q * unitsPerOne ≤ 4 * bound * 2 ^ weight magnitude := by
  have hbit : (0 : ℚ) < 4 * 2 ^ weight magnitude := by positivity
  rw [inBits, div_le_iff₀ hbit, mul_left_comm, mul_assoc]

/-- Where the gap below is that of above, half a last bit counts on both sides. -/
theorem roundsTo_of_wide_gap (hgap : gapBelow magnitude = 2) (hpos : 0 < mantissa magnitude)
    (hnearest : Nearest (mantissa magnitude) (inBits magnitude q)) : RoundsTo magnitude q where
  low_le := by
    have hlow := le_inBits_iff.mp hnearest.low_le
    rw [cast_lowUnits hpos, hgap]
    push_cast
    linarith
  le_high := by
    have hhigh := inBits_le_iff.mp hnearest.le_high
    rw [cast_highUnits]
    linarith
  inside := by
    intro hodd
    obtain ⟨habove, hbelow⟩ := hnearest.inside ((mantissa_mod_two magnitude).trans hodd)
    have hlow := mt inBits_le_iff.mpr (not_le.mpr habove)
    have hhigh := mt le_inBits_iff.mpr (not_le.mpr hbelow)
    rw [cast_lowUnits hpos, cast_highUnits, hgap]
    push_cast
    constructor <;> linarith

/-- Where the gap below is half of that above, a quarter of a last bit counts below. -/
theorem roundsTo_of_narrow_gap (hgap : gapBelow magnitude = 1)
    (hlow : (leadingBit : ℚ) - 1 / 4 ≤ inBits magnitude q)
    (hhigh : inBits magnitude q ≤ leadingBit + 1 / 2) : RoundsTo magnitude q := by
  have hmantissa : mantissa magnitude = leadingBit := by
    rw [gapBelow] at hgap
    split at hgap
    · next h => exact h.1
    · cases hgap
  have hpos : 0 < mantissa magnitude := hmantissa.symm ▸ Nat.pow_pos (by decide)
  constructor
  · rw [cast_lowUnits hpos, hgap, hmantissa, Nat.cast_one]
    linarith [le_inBits_iff.mp hlow]
  · rw [cast_highUnits, hmantissa]
    linarith [inBits_le_iff.mp hhigh]
  · intro hodd
    rw [← mantissa_mod_two, hmantissa, leadingBit_eq] at hodd
    omega

end Gaps

/-- A ratio rounds to the magnitude of a nearest natural and the power of two of its last bit. -/
theorem roundsTo_of_nearest {q : ℚ} (hpos : 0 ≤ q)
    (hnearest : Nearest size (q * unitsPerOne / (4 * 2 ^ power))) (hsize : size ≤ 2 * leadingBit)
    (hnormal : 0 < power → (leadingBit : ℚ) ≤ q * unitsPerOne / (4 * 2 ^ power)) :
    RoundsTo (power * leadingBit + size) q := by
  rcases Nat.lt_or_ge size (2 * leadingBit) with hlt | hge
  · have hfilled : 0 < power → leadingBit ≤ size := fun h ↦ hnearest.le_of_le (hnormal h)
    obtain ⟨hmantissa, hweight⟩ := parts_of_lt hlt hfilled
    have hbits : inBits (power * leadingBit + size) q = q * unitsPerOne / (4 * 2 ^ power) := by
      rw [inBits, hweight]
    rw [← hbits] at hnearest hnormal
    rcases Nat.eq_zero_or_pos size with hzero | hsizePos
    · have hleast : power = 0 := by
        by_contra hne
        have hpositive := hfilled (Nat.pos_of_ne_zero hne)
        rw [hzero, leadingBit_eq] at hpositive
        omega
      have hhigh := inBits_le_iff.mp hnearest.le_high
      rw [hweight, hzero, hleast, Nat.cast_zero, pow_zero] at hhigh
      rw [hzero, hleast, Nat.zero_mul]
      exact roundsTo_zero_of_le hpos (by linarith)
    · by_cases hfirst : size = leadingBit ∧ 0 < power
      · refine roundsTo_of_narrow_gap (by rw [gapBelow, hmantissa, hweight, if_pos hfirst]) ?_ ?_
        · linarith [hnormal hfirst.2]
        · exact hfirst.1 ▸ hnearest.le_high
      · refine roundsTo_of_wide_gap (by rw [gapBelow, hmantissa, hweight, if_neg hfirst]) ?_ ?_
        · rwa [hmantissa]
        · rwa [hmantissa]
  · have hlast : size = 2 * leadingBit := Nat.le_antisymm hsize hge
    obtain ⟨hmantissa, hweight⟩ := parts_of_eq power hlast
    have hgap : gapBelow (power * leadingBit + size) = 1 := by
      rw [gapBelow, hmantissa, hweight, if_pos ⟨rfl, Nat.succ_pos power⟩]
    have hbits : 2 * inBits (power * leadingBit + size) q =
        q * unitsPerOne / (4 * 2 ^ power) := by
      rw [inBits, hweight, pow_succ]
      ring
    have hdouble : (size : ℚ) = 2 * leadingBit := by rw [hlast, Nat.cast_mul, Nat.cast_two]
    have hlow := hnearest.low_le
    have hhigh := hnearest.le_high
    rw [← hbits, hdouble] at hlow hhigh
    exact roundsTo_of_narrow_gap hgap (by linarith) (by linarith)

end Magnitudes

/-! ## Rounding ratios -/

theorem zpow_of_nonneg (base : ℕ) {power : ℤ} (h : 0 ≤ power) :
    (base : ℚ) ^ power = (Nat.pow base power.toNat : ℕ) := by
  obtain ⟨n, rfl⟩ := Int.eq_ofNat_of_zero_le h
  simp

theorem zpow_of_neg (base : ℕ) {power : ℤ} (h : power < 0) :
    (base : ℚ) ^ power = ((Nat.pow base (-power).toNat : ℕ) : ℚ)⁻¹ := by
  rw [← zpow_of_nonneg base (by omega : 0 ≤ -power), zpow_neg, inv_inv]

section Ratios

variable {num den : ℕ}

theorem binaryExponent_spec (hnum : 0 < num) (hden : 0 < den) :
    (2 : ℚ) ^ binaryExponent num den ≤ num / den ∧
      (num / den : ℚ) < 2 ^ (binaryExponent num den + 1) := by
  obtain ⟨hlow, hhigh⟩ := Decimal.ratio_bounds hnum hden
  rw [binaryExponent]
  generalize (num.log2 : ℤ) - den.log2 = guess at *
  have hreached : (if guess ≥ 0 then num ≥ den * Nat.pow 2 guess.toNat
      else num * Nat.pow 2 (-guess).toNat ≥ den) ↔ (2 : ℚ) ^ guess ≤ num / den := by
    have hden' : (0 : ℚ) < den := by exact_mod_cast hden
    split
    · next h =>
      have hpow : (2 : ℚ) ^ guess = _ := zpow_of_nonneg 2 h
      rw [hpow, le_div_iff₀ hden', ge_iff_le, Nat.mul_comm]
      exact_mod_cast Iff.rfl
    · next h =>
      have hpow : (2 : ℚ) ^ guess = _ := zpow_of_neg 2 (not_le.mp h)
      have hup : (0 : ℚ) < (Nat.pow 2 (-guess).toNat : ℕ) := by
        exact_mod_cast Nat.pow_pos (by decide)
      rw [hpow, inv_le_iff_one_le_mul₀ hup, div_mul_eq_mul_div, le_div_iff₀ hden', one_mul]
      exact_mod_cast Iff.rfl
  by_cases h : (2 : ℚ) ^ guess ≤ num / den
  · rw [if_pos (hreached.mpr h)]
    exact ⟨h, hhigh⟩
  · rw [if_neg (mt hreached.mp h), sub_add_cancel]
    exact ⟨hlow.le, not_le.mp h⟩

/-- The power of two of the last bit of a rounded ratio. -/
def lastBit (num den : ℕ) : ℤ := max (binaryExponent num den - 52) (-1074)

def roundedBits (num den : ℕ) : ℕ :=
  if lastBit num den ≥ 0 then roundDiv num (den * Nat.pow 2 (lastBit num den).toNat)
  else roundDiv (num * Nat.pow 2 (-lastBit num den).toNat) den

theorem nearest_roundedBits (num : ℕ) (hden : 0 < den) :
    Nearest (roundedBits num den) (num / den / 2 ^ lastBit num den) := by
  rw [roundedBits]
  generalize lastBit num den = power
  split
  · next h =>
    have hpow : (2 : ℚ) ^ power = _ := zpow_of_nonneg 2 h
    rw [hpow, div_div, ← Nat.cast_mul]
    exact nearest_roundDiv num (Nat.mul_pos hden (Nat.pow_pos (by decide)))
  · next h =>
    have hpow : (2 : ℚ) ^ power = _ := zpow_of_neg 2 (not_le.mp h)
    rw [hpow, div_inv_eq_mul, div_mul_eq_mul_div, ← Nat.cast_mul]
    exact nearest_roundDiv _ hden

theorem leadingBit_cast : (leadingBit : ℚ) = 2 ^ (52 : ℤ) := by
  rw [leadingBit_eq]
  norm_num

/-- A ratio has at most one bit more than a significand, and fills it unless the last bit is that of
the least number. -/
theorem ratio_bits (hnum : 0 < num) (hden : 0 < den) :
    (num / den / 2 ^ lastBit num den : ℚ) < (2 * leadingBit : ℕ) ∧
      (-1074 < lastBit num den → (leadingBit : ℚ) ≤ num / den / 2 ^ lastBit num den) := by
  obtain ⟨hlow, hhigh⟩ := binaryExponent_spec hnum hden
  have hbit : (0 : ℚ) < 2 ^ lastBit num den := by positivity
  have hpow {power other : ℤ} (h : power ≤ other) : (2 : ℚ) ^ power ≤ 2 ^ other :=
    zpow_le_zpow_right₀ one_le_two h
  constructor
  · rw [div_lt_iff₀ hbit]
    calc
      (num / den : ℚ) < 2 ^ (binaryExponent num den + 1) := hhigh
      _ ≤ 2 ^ (1 + 52 + lastBit num den) := hpow (by rw [lastBit]; omega)
      _ = (2 * leadingBit : ℕ) * 2 ^ lastBit num den := by
        rw [zpow_add₀ two_ne_zero, zpow_add₀ two_ne_zero, Nat.cast_mul, leadingBit_cast, zpow_one,
          Nat.cast_two]
  · intro h
    rw [le_div_iff₀ hbit]
    calc
      (leadingBit : ℚ) * 2 ^ lastBit num den = 2 ^ (52 + lastBit num den) := by
        rw [zpow_add₀ two_ne_zero, leadingBit_cast]
      _ ≤ 2 ^ binaryExponent num den := hpow (by rw [lastBit] at *; omega)
      _ ≤ num / den := hlow

/-- A ratio other than zero is put together from its last bits and their power of two. -/
theorem ofRatio_of_pos (hnum : 0 < num) (hden : 0 < den) : ∃ magnitude,
    RoundsTo magnitude (num / den) ∧ ofRatio num den =
      if magnitude < 2047 * leadingBit then some (ofMagnitudeBits false magnitude) else none := by
  obtain ⟨power, hpower⟩ := Int.eq_ofNat_of_zero_le
    (by rw [lastBit]; omega : 0 ≤ lastBit num den + 1074)
  have hlastBit : lastBit num den = power - halvings := by
    have hhalvings : (halvings : ℤ) = 1074 := rfl
    omega
  have hunits : (num / den * unitsPerOne / (4 * 2 ^ power) : ℚ) =
      num / den / 2 ^ lastBit num den := by
    rw [hlastBit, zpow_sub₀ two_ne_zero, zpow_natCast, zpow_natCast, unitsPerOne]
    push_cast
    rw [div_div_eq_mul_div, mul_left_comm, mul_div_mul_left _ _ four_ne_zero]
  obtain ⟨hbits, hnormal⟩ := ratio_bits hnum hden
  have hnearest := nearest_roundedBits num hden
  rw [← hunits] at hbits hnormal hnearest
  have hfilled : 0 < power → (leadingBit : ℚ) ≤ num / den * unitsPerOne / (4 * 2 ^ power) :=
    fun h ↦ hnormal (by omega)
  refine ⟨_, roundsTo_of_nearest (by positivity) hnearest (hnearest.le_of_lt hbits) hfilled, ?_⟩
  have hmagnitude : (if roundedBits num den < leadingBit then roundedBits num den
      else (lastBit num den + 1075).toNat * leadingBit + (roundedBits num den - leadingBit)) =
        power * leadingBit + roundedBits num den := by
    have hsize : 0 < power → leadingBit ≤ roundedBits num den :=
      fun h ↦ hnearest.le_of_le (hfilled h)
    rw [leadingBit_eq] at *
    split <;> omega
  rw [← hmagnitude, ofRatio, if_neg hnum.ne']
  rfl

/-- A ratio is rounded to the number whose magnitude it rounds to. -/
theorem ofRatio_eq_some (hden : 0 < den) {magnitude : ℕ} (hrounds : RoundsTo magnitude (num / den))
    (hfinite : magnitude < 2047 * leadingBit) :
    ofRatio num den = some (ofMagnitudeBits false magnitude) := by
  rcases Nat.eq_zero_or_pos num with rfl | hnum
  · rw [Nat.cast_zero, zero_div] at hrounds
    rw [hrounds.unique Decimal.roundsTo_zero, ofRatio, if_pos rfl]
    rfl
  · obtain ⟨other, hother, heq⟩ := ofRatio_of_pos hnum hden
    rw [heq, hother.unique hrounds, if_pos hfinite]

end Ratios

/-! ## Rounding decimals -/

/-- The interval of a finite magnitude ends before a power of two. -/
theorem highUnits_le {magnitude : ℕ} (h : magnitude < 2047 * leadingBit) :
    highUnits magnitude ≤ 2 ^ doublings * unitsPerOne := by
  have hparts : mantissa (2047 * leadingBit) = leadingBit ∧
      weight (2047 * leadingBit) = 972 + halvings := by
    decide
  have hleading : leadingBit = 2 ^ 52 := rfl
  have hsum : 52 + (972 + halvings) = doublings + halvings := rfl
  calc
    _ ≤ lowUnits (2047 * leadingBit) := highUnits_le_lowUnits h
    _ ≤ 4 * leadingBit * 2 ^ (972 + halvings) := by
      rw [lowUnits, hparts.1, hparts.2]
      exact Nat.mul_le_mul_right _ (Nat.sub_le _ _)
    _ = 4 * (2 ^ doublings * 2 ^ halvings) := by
      rw [Nat.mul_assoc, hleading, ← Nat.pow_add, hsum, Nat.pow_add]
    _ = 2 ^ doublings * unitsPerOne := by rw [unitsPerOne, Nat.mul_left_comm]

theorem RoundsTo.le_two_pow {magnitude : ℕ} {q : ℚ} (h : RoundsTo magnitude q)
    (hfinite : magnitude < 2047 * leadingBit) : q ≤ 2 ^ doublings := by
  have hunit : (0 : ℚ) < unitsPerOne := by exact_mod_cast unitsPerOne_pos
  have hend : (highUnits magnitude : ℚ) ≤ 2 ^ doublings * unitsPerOne := by
    exact_mod_cast highUnits_le hfinite
  exact le_of_mul_le_mul_right (h.le_high.trans hend) hunit

/-- A decimal is read as the number whose magnitude it rounds to. -/
theorem ofDecimal_eq_some {digits count : ℕ} {exponent : ℤ} (hcount : digits < 10 ^ count)
    {magnitude : ℕ} (hrounds : RoundsTo magnitude (digits * 10 ^ exponent))
    (hfinite : magnitude < 2047 * leadingBit) :
    ofDecimal digits count exponent = some (ofMagnitudeBits false magnitude) := by
  have hpow {power other : ℤ} (h : power ≤ other) : (10 : ℚ) ^ power ≤ 10 ^ other :=
    zpow_le_zpow_right₀ (by norm_num) h
  rw [ofDecimal]
  split
  · next hzero =>
    rw [hzero, Nat.cast_zero, zero_mul] at hrounds
    rw [hrounds.unique Decimal.roundsTo_zero]
    rfl
  next hzero =>
  have hdigits : (1 : ℚ) ≤ digits := by exact_mod_cast Nat.pos_of_ne_zero hzero
  split
  · next hlarge =>
    have hbound : (2 : ℚ) ^ doublings < 10 ^ (401 : ℤ) := by
      have hnat : 2 ^ doublings < 10 ^ 401 := by decide +kernel
      exact_mod_cast hnat
    have hvalue : (10 : ℚ) ^ (401 : ℤ) ≤ digits * 10 ^ exponent := by
      calc
        _ ≤ (10 : ℚ) ^ exponent := hpow (by omega)
        _ ≤ _ := le_mul_of_one_le_left (by positivity) hdigits
    exact absurd (hrounds.le_two_pow hfinite) (not_le.mpr (hbound.trans_le hvalue))
  split
  · next hsmall =>
    have hzero : RoundsTo 0 (digits * (10 : ℚ) ^ exponent) := by
      have hnat : 4 * 2 ^ halvings ≤ 2 * 10 ^ 401 := by decide +kernel
      have hunits : (unitsPerOne : ℚ) ≤ 2 * 10 ^ (401 : ℤ) := by
        rw [unitsPerOne]
        exact_mod_cast hnat
      have hsize : (digits : ℚ) ≤ 10 ^ (count : ℤ) := by exact_mod_cast hcount.le
      refine roundsTo_zero_of_le (by positivity) ?_
      calc
        _ ≤ (10 : ℚ) ^ (count : ℤ) * 10 ^ exponent * (2 * 10 ^ (401 : ℤ)) :=
          mul_le_mul (mul_le_mul_of_nonneg_right hsize (by positivity)) hunits
            (Nat.cast_nonneg _) (by positivity)
        _ = 2 * 10 ^ (count + exponent + 401) := by
          rw [mul_left_comm, ← zpow_add₀ (by norm_num), ← zpow_add₀ (by norm_num)]
        _ ≤ 2 * 10 ^ (0 : ℤ) := by
          have h := hpow (by omega : count + exponent + 401 ≤ 0)
          linarith
        _ = 2 := by rw [zpow_zero, mul_one]
    rw [hrounds.unique hzero]
    rfl
  split
  · next hwhole =>
    have hpower : (10 : ℚ) ^ exponent = _ := zpow_of_nonneg 10 hwhole
    rw [hpower, ← Nat.cast_mul, ← div_one (Nat.cast _), ← Nat.cast_one] at hrounds
    exact ofRatio_eq_some Nat.one_pos hrounds hfinite
  · next hfraction =>
    have hpower : (10 : ℚ) ^ exponent = _ := zpow_of_neg 10 (not_le.mp hfraction)
    rw [hpower, ← div_eq_mul_inv] at hrounds
    exact ofRatio_eq_some (Nat.pow_pos (by decide)) hrounds hfinite

end Binary64

namespace Digits

open Binary64

theorem ofDigitChars_lt {cs : List Char} (h : ∀ c ∈ cs, c.isDigit) (start : ℕ) :
    Nat.ofDigitChars 10 cs start < (start + 1) * 10 ^ cs.length := by
  induction cs generalizing start with
  | nil => simp
  | cons c rest ih =>
    obtain ⟨hc, hrest⟩ := List.forall_mem_cons.mp h
    have hlast : c.toNat - '0'.toNat < 10 := by
      have hrange : '0' ≤ c ∧ c ≤ '9' := by simpa [Char.isDigit, Char.le_def] using hc
      have hnine : c.toNat ≤ '9'.toNat := hrange.2
      have hdistance : '9'.toNat = '0'.toNat + 9 := rfl
      omega
    calc
      _ = Nat.ofDigitChars 10 rest (10 * start + (c.toNat - '0'.toNat)) := Nat.ofDigitChars_cons
      _ < (10 * start + (c.toNat - '0'.toNat) + 1) * 10 ^ rest.length := ih hrest _
      _ ≤ (10 * (start + 1)) * 10 ^ rest.length := Nat.mul_le_mul_right _ (by omega)
      _ = (start + 1) * 10 ^ (c :: rest).length := by
        rw [List.length_cons, Nat.pow_succ]
        ring

theorem Spelling.exists_first (s : Spelling) : ∃ c rest, s.text = c :: rest ∧ c.isDigit := by
  obtain ⟨c, rest, hwhole⟩ := List.exists_cons_of_ne_nil s.whole_ne_nil
  refine ⟨c, _, by rw [text, hwhole, List.cons_append], s.isDigit c ?_⟩
  rw [hwhole]
  exact List.mem_cons_self

/-- A spelled decimal is read as the number whose magnitude it rounds to. -/
theorem decimal?_text (s : Spelling) {magnitude : ℕ} (hrounds : RoundsTo magnitude s.value)
    (hfinite : magnitude < 2047 * leadingBit) :
    decimal? s.text = some (ofMagnitudeBits false magnitude) := by
  have hcount := ofDigitChars_lt s.isDigit 0
  rw [Nat.zero_add, Nat.one_mul] at hcount
  rw [decimal?, s.scaled?_text]
  exact ofDecimal_eq_some hcount hrounds hfinite

end Digits

namespace Binary64

theorem toNat_bits_ofMagnitudeBits (negative : Bool) (magnitude : ℕ) :
    (ofMagnitudeBits negative magnitude).bits.toNat =
      magnitude % signBit + if negative then signBit else 0 := by
  have hlt : magnitude % signBit < signBit := Nat.mod_lt _ (by decide)
  have hbit : signBit = 9223372036854775808 := rfl
  have hword : 2 ^ 64 = 18446744073709551616 := rfl
  rw [ofMagnitudeBits]
  dsimp only
  rw [UInt64.toNat_ofNat', hword, Nat.mod_eq_of_lt]
  rw [hbit] at *
  split <;> omega

theorem isNegative_ofMagnitudeBits (negative : Bool) (magnitude : ℕ) :
    (ofMagnitudeBits negative magnitude).isNegative = negative := by
  have hlt : magnitude % signBit < signBit := Nat.mod_lt _ (by decide)
  rw [isNegative, toNat_bits_ofMagnitudeBits]
  cases negative
  · exact decide_eq_false (by simpa using hlt)
  · exact decide_eq_true (Nat.le_add_left _ _)

theorem magnitudeBits_ofMagnitudeBits (negative : Bool) (magnitude : ℕ) :
    (ofMagnitudeBits negative magnitude).magnitudeBits = magnitude % signBit := by
  rw [magnitudeBits, toNat_bits_ofMagnitudeBits]
  cases negative <;> simp

/-- A number is its magnitude with its sign. -/
theorem withSign_ofMagnitudeBits (x : Binary64) :
    (ofMagnitudeBits false x.magnitudeBits).withSign x.isNegative = x := by
  have hmagnitude : x.magnitudeBits % signBit = x.magnitudeBits := Nat.mod_mod _ _
  rw [withSign, magnitudeBits_ofMagnitudeBits, hmagnitude]
  apply Decimal.eq_of_sign_of_magnitude
  · exact isNegative_ofMagnitudeBits _ _
  · rw [magnitudeBits_ofMagnitudeBits, hmagnitude]

end Binary64

namespace Decimal

open Digits

/-- The text of a finite number is its sign and a decimal, from which the number is read. -/
theorem exists_decimal?_text {x : Binary64} (h : x.IsFinite) : ∃ s : Spelling,
    (dataLayout.text x).toList = (if x.isNegative then ['-'] else []) ++ s.text ∧
      (decimal? s.text).map (·.withSign x.isNegative) = some x := by
  obtain ⟨s, htext, hrounds⟩ := text_eq_sign_append x
  refine ⟨s, htext, ?_⟩
  rw [decimal?_text s (hrounds h) h, Option.map_some, Binary64.withSign_ofMagnitudeBits]

end Decimal

end ManifestTree
