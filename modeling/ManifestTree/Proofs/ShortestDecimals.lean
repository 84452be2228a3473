import ManifestTree.Proofs.RoundingIntervals
import Mathlib.Algebra.Order.Field.Power
import Mathlib.Tactic.NormNum

/-!
# The shortest decimal rounds to its number

The decimal exponent of a finite number is estimated from below, so on the grid of eighteen digits
the neighbour below the number already rounds to it, and the search ends on that grid or on a
coarser one. What it finds rounds to the number, and moving trailing zeros into the power of ten
changes no value. That no shorter decimal rounds to the number is not shown.
-/

namespace ManifestTree.Decimal

open Binary64

/-! ## Powers and ratios -/

theorem zpow_eq_div (base : ℕ) (power : ℤ) :
    (base : ℚ) ^ power = (base ^ power.toNat : ℕ) / (base ^ (-power).toNat : ℕ) := by
  rcases Int.le_total 0 power with h | h
  · obtain ⟨n, rfl⟩ := Int.eq_ofNat_of_zero_le h
    simp
  · obtain ⟨n, hn⟩ := Int.eq_ofNat_of_zero_le (Int.neg_nonneg_of_nonpos h)
    obtain rfl : power = -n := by omega
    simp

theorem reaches_iff (num : ℕ) {den : ℕ} (hden : 0 < den) (power : ℤ) :
    reaches num den 1 power ↔ (10 : ℚ) ^ power ≤ num / den := by
  have hden' : (0 : ℚ) < den := by exact_mod_cast hden
  have hten : (0 : ℚ) < (10 ^ (-power).toNat : ℕ) := by positivity
  have hpow : (10 : ℚ) ^ power = (10 ^ power.toNat : ℕ) / (10 ^ (-power).toNat : ℕ) :=
    zpow_eq_div 10 power
  rw [hpow, div_le_div_iff₀ hten hden', reaches]
  split
  · next h =>
    have hzero : (-power).toNat = 0 := by omega
    rw [hzero, decide_eq_true_eq]
    simp only [Nat.one_mul, pow_zero, Nat.cast_one, mul_one, Nat.pow_eq]
    exact_mod_cast Iff.rfl
  · next h =>
    have hzero : power.toNat = 0 := by omega
    rw [hzero, decide_eq_true_eq]
    simp only [pow_zero, Nat.cast_one, Nat.pow_eq]
    exact_mod_cast Iff.rfl

/-- The power of two in front of a ratio, from the lengths of its parts. -/
theorem ratio_bounds {num den : ℕ} (hnum : 0 < num) (hden : 0 < den) :
    (2 : ℚ) ^ ((num.log2 : ℤ) - den.log2 - 1) < num / den ∧
      (num / den : ℚ) < 2 ^ ((num.log2 : ℤ) - den.log2 + 1) := by
  have hden' : (0 : ℚ) < den := by exact_mod_cast hden
  have hpow (n : ℕ) : (0 : ℚ) < 2 ^ n := by positivity
  have hnumLow : (2 : ℚ) ^ num.log2 ≤ num := by exact_mod_cast Nat.log2_self_le hnum.ne'
  have hnumHigh : (num : ℚ) < 2 ^ (num.log2 + 1) := by exact_mod_cast Nat.lt_log2_self
  have hdenLow : (2 : ℚ) ^ den.log2 ≤ den := by exact_mod_cast Nat.log2_self_le hden.ne'
  have hdenHigh : (den : ℚ) < 2 ^ (den.log2 + 1) := by exact_mod_cast Nat.lt_log2_self
  constructor
  · calc
      (2 : ℚ) ^ ((num.log2 : ℤ) - den.log2 - 1) = 2 ^ num.log2 / 2 ^ (den.log2 + 1) := by
        rw [sub_sub, zpow_sub₀ two_ne_zero]
        exact_mod_cast rfl
      _ < 2 ^ num.log2 / den := div_lt_div_of_pos_left (hpow _) hden' hdenHigh
      _ ≤ num / den := div_le_div_of_nonneg_right hnumLow hden'.le
  · calc
      (num / den : ℚ) < 2 ^ (num.log2 + 1) / den := div_lt_div_of_pos_right hnumHigh hden'
      _ ≤ 2 ^ (num.log2 + 1) / 2 ^ den.log2 :=
        div_le_div_of_nonneg_left (hpow _).le (hpow _) hdenLow
      _ = 2 ^ ((num.log2 : ℤ) - den.log2 + 1) := by
        rw [sub_add_eq_add_sub, zpow_sub₀ two_ne_zero]
        exact_mod_cast rfl

/-! ## The decimal exponent -/

/-- The estimate of the decimal exponent from a power of two. -/
def estimate (power : ℤ) : ℤ := (power * 30103).fdiv 100000

/-- The estimate is at most one too high. -/
theorem pow_estimate_le : ∀ n : ℕ, n < 2200 →
    10 ^ (estimate (n - 1100) - 1).toNat * 2 ^ (1101 - n) ≤
      2 ^ (n - 1101) * 10 ^ (-(estimate (n - 1100) - 1)).toNat := by
  decide +kernel

theorem zpow_estimate_le {power : ℤ} (hlow : -1100 ≤ power) (hhigh : power < 1100) :
    (10 : ℚ) ^ (estimate power - 1) ≤ 2 ^ (power - 1) := by
  obtain ⟨n, hn⟩ := Int.eq_ofNat_of_zero_le (by omega : 0 ≤ power + 1100)
  obtain rfl : power = n - 1100 := by omega
  have hten : (10 : ℚ) ^ (estimate (n - 1100) - 1) = _ := zpow_eq_div 10 _
  have htwo : (2 : ℚ) ^ ((n : ℤ) - 1100 - 1) = _ := zpow_eq_div 2 _
  have hup : ((n : ℤ) - 1100 - 1).toNat = n - 1101 := by omega
  have hdown : (-((n : ℤ) - 1100 - 1)).toNat = 1101 - n := by omega
  have hpos (base k : ℕ) (hbase : 0 < base) : (0 : ℚ) < (base ^ k : ℕ) := by
    exact_mod_cast Nat.pow_pos hbase
  rw [hten, htwo, hup, hdown, div_le_div_iff₀ (hpos 10 _ (by decide)) (hpos 2 _ (by decide))]
  exact_mod_cast pow_estimate_le n (by omega)

/-- The exponent found is not above the number. -/
theorem zpow_decimalExponent_le {num den : ℕ} (hnum : 0 < num) (hden : 0 < den)
    (hlow : -1100 ≤ (num.log2 : ℤ) - den.log2) (hhigh : (num.log2 : ℤ) - den.log2 < 1100) :
    (10 : ℚ) ^ decimalExponent num den ≤ num / den := by
  have hestimate : decimalExponent num den =
      if reaches num den 1 (estimate (num.log2 - den.log2) + 1) then
        estimate (num.log2 - den.log2) + 1
      else if reaches num den 1 (estimate (num.log2 - den.log2)) then
        estimate (num.log2 - den.log2)
      else estimate (num.log2 - den.log2) - 1 := rfl
  rw [hestimate]
  split
  · next h => exact (reaches_iff num hden _).mp h
  · split
    · next h => exact (reaches_iff num hden _).mp h
    · exact (zpow_estimate_le hlow hhigh).trans (ratio_bounds hnum hden).1.le

/-! ## Grids -/

section Grid

variable {range : Interval} {power : ℤ}

/-- The number of whole steps of a grid in the number of an interval. -/
def wholeSteps (range : Interval) (power : ℤ) : ℕ :=
  range.mid * 10 ^ (-power).toNat / (range.den * 10 ^ power.toNat)

def holds (range : Interval) (power : ℤ) (digits : ℕ) : Bool :=
  range.contains (digits * 10 ^ power.toNat) (10 ^ (-power).toNat)

theorem stepUp_eq (power : ℤ) :
    (if power ≥ 0 then Nat.pow 10 power.toNat else 1) = 10 ^ power.toNat := by
  split
  · rfl
  · next h => rw [Int.toNat_of_nonpos (by omega), pow_zero]

theorem stepDown_eq (power : ℤ) :
    (if power ≥ 0 then 1 else Nat.pow 10 (-power).toNat) = 10 ^ (-power).toNat := by
  split
  · next h => rw [Int.toNat_of_nonpos (by omega), pow_zero]
  · rfl

/-- What is found on a grid is one of the two neighbours of the number, and lies in the interval. -/
theorem onGrid_eq_some {digits : ℕ} (h : onGrid range power = some digits) :
    wholeSteps range power ≤ digits ∧ holds range power digits := by
  unfold onGrid at h
  simp only [stepUp_eq, stepDown_eq] at h
  split at h
  · next hbelow habove =>
    have hnext : digits = wholeSteps range power ∨ digits = wholeSteps range power + 1 := by
      split at h
      · exact .inl (Option.some.inj h).symm
      · split at h
        · exact .inr (Option.some.inj h).symm
        · split at h
          · exact .inl (Option.some.inj h).symm
          · exact .inr (Option.some.inj h).symm
    rcases hnext with rfl | rfl
    · exact ⟨Nat.le_refl _, hbelow⟩
    · exact ⟨Nat.le_succ _, habove⟩
  · next hbelow _ =>
    cases h
    exact ⟨Nat.le_refl _, hbelow⟩
  · next habove =>
    cases h
    exact ⟨Nat.le_succ _, habove⟩
  · cases h

theorem onGrid_isSome (h : holds range power (wholeSteps range power)) :
    (onGrid range power).isSome := by
  unfold onGrid
  simp only [stepUp_eq, stepDown_eq]
  split
  · split
    · rfl
    · split
      · rfl
      · rfl
  · rfl
  · rfl
  · next hbelow _ => exact absurd (h.symm.trans hbelow) (by decide)

theorem holds_iff (x : Binary64) (power : ℤ) (digits : ℕ) :
    holds (Interval.ofBinary64 x) power digits ↔
      RoundsTo x.magnitudeBits (digits * (10 : ℚ) ^ power) := by
  have hpow : (10 : ℚ) ^ power = _ := zpow_eq_div 10 power
  rw [holds, contains_iff x _ (Nat.pow_pos (by decide)), hpow, Nat.cast_mul, mul_div_assoc]

theorem wholeSteps_bounds (hden : 0 < range.den) (power : ℤ) :
    wholeSteps range power * (10 : ℚ) ^ power ≤ range.mid / range.den ∧
      (range.mid / range.den : ℚ) < (wholeSteps range power + 1) * (10 : ℚ) ^ power := by
  have hup : 0 < 10 ^ power.toNat := Nat.pow_pos (by decide)
  have hdown : 0 < 10 ^ (-power).toNat := Nat.pow_pos (by decide)
  have hstep : 0 < range.den * 10 ^ power.toNat := Nat.mul_pos hden hup
  have hlow := Nat.div_mul_le_self (range.mid * 10 ^ (-power).toNat) (range.den * 10 ^ power.toNat)
  have hhigh := Nat.lt_mul_of_div_lt (Nat.lt_succ_self (wholeSteps range power)) hstep
  have hpow : (10 : ℚ) ^ power = _ := zpow_eq_div 10 power
  have hden' : (0 : ℚ) < range.den := by exact_mod_cast hden
  have hdown' : (0 : ℚ) < (10 ^ (-power).toNat : ℕ) := by exact_mod_cast hdown
  rw [hpow, mul_div_assoc', mul_div_assoc', div_le_div_iff₀ hdown' hden',
    div_lt_div_iff₀ hden' hdown']
  constructor
  · have h : wholeSteps range power * 10 ^ power.toNat * range.den ≤
        range.mid * 10 ^ (-power).toNat := by
      rwa [Nat.mul_assoc, Nat.mul_comm (10 ^ power.toNat)]
    exact_mod_cast h
  · have h : range.mid * 10 ^ (-power).toNat <
        (wholeSteps range power + 1) * 10 ^ power.toNat * range.den := by
      rwa [Nat.mul_assoc, Nat.mul_comm (10 ^ power.toNat)]
    exact_mod_cast h

end Grid

/-! ## The number of an interval -/

section Middle

variable {x : Binary64}

theorem den_pos (x : Binary64) : 0 < (Interval.ofBinary64 x).den := by
  obtain ⟨scale, -, hone, -⟩ := exists_scale x
  apply Nat.pos_of_mul_pos_right (b := scale)
  rw [hone]
  exact unitsPerOne_pos

/-- The number of an interval, in quarters of the least number. -/
theorem middle_mul (x : Binary64) :
    ((Interval.ofBinary64 x).mid / (Interval.ofBinary64 x).den : ℚ) * unitsPerOne =
      midUnits x.magnitudeBits := by
  obtain ⟨scale, -, hone, -, hmid, -⟩ := exists_scale x
  have hden : ((Interval.ofBinary64 x).den : ℚ) ≠ 0 := by exact_mod_cast (den_pos x).ne'
  rw [← hone, ← hmid]
  push_cast
  rw [← mul_assoc, div_mul_cancel₀ _ hden]

theorem mantissa_pos (hzero : x.isZero = false) : 0 < mantissa x.magnitudeBits := by
  have hne : x.magnitudeBits ≠ 0 := by simpa [isZero] using hzero
  unfold mantissa
  split
  · omega
  · exact Nat.add_pos_right _ (by decide)

theorem mid_pos (hzero : x.isZero = false) : 0 < (Interval.ofBinary64 x).mid := by
  obtain ⟨scale, -, -, -, hmid, -⟩ := exists_scale x
  apply Nat.pos_of_mul_pos_right (b := scale)
  rw [hmid]
  exact Nat.mul_pos (Nat.mul_pos (by decide) (mantissa_pos hzero)) (Nat.two_pow_pos _)

theorem midUnits_le (hfinite : x.IsFinite) :
    midUnits x.magnitudeBits ≤ 2 ^ doublings * unitsPerOne := by
  have hsize : mantissa x.magnitudeBits ≤ 2 ^ 53 := (mantissa_lt _).le
  have hhalvings : halvings = 1074 := rfl
  have hweight : weight x.magnitudeBits ≤ 971 + halvings := by
    have hfinite' : x.magnitudeBits < 2047 * leadingBit := hfinite
    rw [weight, leadingBit_eq]
    rw [leadingBit_eq] at hfinite'
    omega
  have hsum : 53 + (971 + halvings) = doublings + halvings := rfl
  calc
    _ = 4 * (mantissa x.magnitudeBits * 2 ^ weight x.magnitudeBits) := Nat.mul_assoc _ _ _
    _ ≤ 4 * (2 ^ 53 * 2 ^ (971 + halvings)) :=
      Nat.mul_le_mul_left 4 (Nat.mul_le_mul hsize (Nat.pow_le_pow_right (by decide) hweight))
    _ = 4 * (2 ^ doublings * 2 ^ halvings) := by rw [← Nat.pow_add, hsum, Nat.pow_add]
    _ = 2 ^ doublings * unitsPerOne := by rw [unitsPerOne, Nat.mul_left_comm]

/-- A finite number other than zero lies between the least number and the power of two behind the
greatest. -/
theorem middle_bounds (hfinite : x.IsFinite) (hzero : x.isZero = false) :
    (2 : ℚ) ^ (-halvings : ℤ) ≤ (Interval.ofBinary64 x).mid / (Interval.ofBinary64 x).den ∧
      ((Interval.ofBinary64 x).mid / (Interval.ofBinary64 x).den : ℚ) ≤ 2 ^ (doublings : ℤ) := by
  have hunit : (0 : ℚ) < unitsPerOne := by exact_mod_cast unitsPerOne_pos
  have hleast : 4 ≤ midUnits x.magnitudeBits :=
    Nat.le_mul_of_pos_right 4 (mantissa_pos hzero) |>.trans
      (Nat.le_mul_of_pos_right _ (Nat.two_pow_pos _))
  rw [eq_div_of_mul_eq hunit.ne' (middle_mul x)]
  constructor
  · calc
      (2 : ℚ) ^ (-halvings : ℤ) = 4 / unitsPerOne := by
        rw [unitsPerOne, zpow_neg, zpow_natCast, Nat.cast_mul, Nat.cast_pow]
        exact (div_mul_cancel_left₀ four_ne_zero _).symm
      _ ≤ _ := div_le_div_of_nonneg_right (by exact_mod_cast hleast) hunit.le
  · rw [div_le_iff₀ hunit, zpow_natCast]
    exact_mod_cast midUnits_le hfinite

theorem log2_bounds (hfinite : x.IsFinite) (hzero : x.isZero = false) :
    -1100 ≤ ((Interval.ofBinary64 x).mid.log2 : ℤ) - (Interval.ofBinary64 x).den.log2 ∧
      ((Interval.ofBinary64 x).mid.log2 : ℤ) - (Interval.ofBinary64 x).den.log2 < 1100 := by
  obtain ⟨hleast, hgreatest⟩ := middle_bounds hfinite hzero
  obtain ⟨hlow, hhigh⟩ := ratio_bounds (mid_pos hzero) (den_pos x)
  have habove := (zpow_lt_zpow_iff_right₀ (by norm_num)).mp (hlow.trans_le hgreatest)
  have hbelow := (zpow_lt_zpow_iff_right₀ (by norm_num)).mp (hleast.trans_lt hhigh)
  have hhalvings : halvings = 1074 := rfl
  have hdoublings : doublings = 1024 := rfl
  omega

/-- On a grid of eighteen digits the neighbour below a number rounds to it. -/
theorem roundsTo_wholeSteps (hzero : x.isZero = false) {power : ℤ}
    (hpower : (10 : ℚ) ^ (power + 17) ≤
      (Interval.ofBinary64 x).mid / (Interval.ofBinary64 x).den) :
    wholeSteps (Interval.ofBinary64 x) power ≠ 0 ∧
      RoundsTo x.magnitudeBits (wholeSteps (Interval.ofBinary64 x) power * 10 ^ power) := by
  obtain ⟨hlow, hhigh⟩ := wholeSteps_bounds (den_pos x) power
  have hmiddle := middle_mul x
  have hstep : (0 : ℚ) < 10 ^ power := by positivity
  have hunit : (0 : ℚ) < unitsPerOne := by exact_mod_cast unitsPerOne_pos
  rw [zpow_add₀ (by norm_num)] at hpower
  norm_num at hpower
  generalize ((Interval.ofBinary64 x).mid / (Interval.ofBinary64 x).den : ℚ) = middle at *
  generalize wholeSteps (Interval.ofBinary64 x) power = steps at *
  generalize (10 : ℚ) ^ power = step at *
  constructor
  · rintro rfl
    norm_num at hhigh
    linarith
  · have hbit : (0 : ℚ) < 2 ^ weight x.magnitudeBits := by positivity
    have hmid : (midUnits x.magnitudeBits : ℚ) =
        4 * mantissa x.magnitudeBits * 2 ^ weight x.magnitudeBits := by
      exact_mod_cast rfl
    have hstart : (lowUnits x.magnitudeBits : ℚ) + 2 ^ weight x.magnitudeBits ≤
        midUnits x.magnitudeBits := by
      exact_mod_cast lowUnits_add_le (mantissa_pos hzero)
    have hend : (midUnits x.magnitudeBits : ℚ) < highUnits x.magnitudeBits := by
      exact_mod_cast midUnits_lt_highUnits _
    have hsize : (mantissa x.magnitudeBits : ℚ) < 2 * 4503599627370496 := by
      exact_mod_cast mantissa_lt x.magnitudeBits
    have hsmall : step * unitsPerOne < 2 ^ weight x.magnitudeBits := by
      have hscaled := mul_le_mul_of_nonneg_right hpower hunit.le
      have hbits := mul_lt_mul_of_pos_right hsize hbit
      rw [hmiddle, hmid] at hscaled
      linarith
    have hbelow := mul_le_mul_of_nonneg_right hlow hunit.le
    have habove := mul_lt_mul_of_pos_right hhigh hunit
    rw [hmiddle] at hbelow habove
    have hin : (lowUnits x.magnitudeBits : ℚ) < steps * step * unitsPerOne := by linarith
    exact ⟨hin.le, by linarith, fun _ ↦ ⟨hin, by linarith⟩⟩

end Middle

/-! ## The search -/

/-- The search ends with what it finds on a grid that it reaches. -/
theorem search_spec {range : Interval} {exponent : ℤ} {steps length reached : ℕ}
    (hreached : length ≤ reached ∧ reached < length + steps)
    (hfound : ∃ digits, onGrid range (exponent - reached + 1) = some digits ∧ digits ≠ 0) :
    (search range exponent steps length).1 ≠ 0 ∧
      onGrid range (search range exponent steps length).2 =
        some (search range exponent steps length).1 := by
  induction steps generalizing length with
  | zero => omega
  | succ steps ih =>
    have hlater (h : ¬ ∃ digits, onGrid range (exponent - length + 1) = some digits ∧ digits ≠ 0) :
        length + 1 ≤ reached ∧ reached < length + 1 + steps := by
      have hne : length ≠ reached := by
        rintro rfl
        exact h hfound
      omega
    rw [search]
    split
    · next digits hgrid =>
      split
      · next hzero =>
        exact ih (hlater fun ⟨other, hother, hne⟩ ↦
          hne ((Option.some.inj (hother.symm.trans hgrid)).trans hzero))
      · next hne => exact ⟨hne, hgrid⟩
    · next hgrid => exact ih (hlater fun ⟨other, hother, _⟩ ↦ nomatch hother.symm.trans hgrid)

theorem stripZeros_value (steps digits : ℕ) (power : ℤ) :
    ((stripZeros steps digits power).1 : ℚ) * 10 ^ (stripZeros steps digits power).2 =
      digits * 10 ^ power := by
  induction steps generalizing digits power with
  | zero => rfl
  | succ steps ih =>
    rw [stripZeros]
    split
    · next h =>
      have hdigits : digits = digits / 10 * 10 := by omega
      have hcast : (digits : ℚ) = (digits / 10 : ℕ) * 10 := by exact_mod_cast hdigits
      rw [ih, hcast, zpow_add_one₀ (by norm_num)]
      ring
    · rfl

/-! ## Shortest decimals -/

def value (number : Decimal) : ℚ :=
  number.digits * 10 ^ (number.exponent - (Nat.toDigits 10 number.digits).length + 1)

/-- The shortest decimal of a finite number rounds to it. -/
theorem roundsTo_value_shortest {x : Binary64} (hfinite : x.IsFinite) (hzero : x.isZero = false) :
    RoundsTo x.magnitudeBits (shortest x).value := by
  let exponent := decimalExponent (Interval.ofBinary64 x).mid (Interval.ofBinary64 x).den
  let found := search (Interval.ofBinary64 x) exponent 18 1
  have hexponent : (10 : ℚ) ^ exponent ≤
      (Interval.ofBinary64 x).mid / (Interval.ofBinary64 x).den := by
    obtain ⟨hlow, hhigh⟩ := log2_bounds hfinite hzero
    exact zpow_decimalExponent_le (mid_pos hzero) (den_pos x) hlow hhigh
  have hlast : ∃ digits, onGrid (Interval.ofBinary64 x) (exponent - (18 : ℕ) + 1) = some digits ∧
      digits ≠ 0 := by
    have hpower : exponent - (18 : ℕ) + 1 + 17 = exponent := by omega
    obtain ⟨hsteps, hrounds⟩ := roundsTo_wholeSteps hzero (hpower.symm ▸ hexponent)
    obtain ⟨digits, hgrid⟩ := Option.isSome_iff_exists.mp
      (onGrid_isSome ((holds_iff x _ _).mpr hrounds))
    have hle := (onGrid_eq_some hgrid).1
    exact ⟨digits, hgrid, by omega⟩
  have hfound : onGrid (Interval.ofBinary64 x) found.2 = some found.1 :=
    (search_spec (by decide) hlast).2
  have hrounds := (holds_iff x _ _).mp (onGrid_eq_some hfound).2
  rw [← stripZeros_value 20] at hrounds
  have hvalue : (shortest x).value = (stripZeros 20 found.1 found.2).1 *
      10 ^ (stripZeros 20 found.1 found.2).2 := by
    have hshortest : shortest x = ⟨(stripZeros 20 found.1 found.2).1,
        (stripZeros 20 found.1 found.2).2 +
          ((Nat.toDigits 10 (stripZeros 20 found.1 found.2).1).length : ℤ) - 1⟩ := rfl
    rw [hshortest, value]
    congr 2
    dsimp only
    omega
  rwa [hvalue]

end ManifestTree.Decimal
