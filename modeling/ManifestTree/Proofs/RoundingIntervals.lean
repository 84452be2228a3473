import ManifestTree.Number.Decimal
import Mathlib.Algebra.Order.Field.Rat
import Mathlib.Tactic.Linarith
import Mathlib.Tactic.Positivity
import Mathlib.Tactic.Ring
import Mathlib.Tactic.SplitIfs

/-!
# Ratios that round to a binary64 number

Counted in quarters of the least positive number, the ends of the interval that rounds to a number
are naturals, and the upper end of one interval is the lower end of the next. Both could claim that
end, but of two neighbours only the one with an even significand does. So no ratio rounds to two
numbers. Only magnitudes are considered, without a sign.
-/

namespace ManifestTree

namespace Binary64

/-- Not one of the words that stand for infinities and for what is no number. -/
def IsFinite (x : Binary64) : Prop := x.magnitudeBits < 2047 * leadingBit

/-! ## Intervals in quarters of the least number -/

def mantissa (magnitude : ℕ) : ℕ :=
  if magnitude < leadingBit then magnitude else magnitude % leadingBit + leadingBit

/-- The power of two of its last bit, counted from that of the least number. -/
def weight (magnitude : ℕ) : ℕ := magnitude / leadingBit - 1

/-- The gap to the number below, in quarters of the last bit: it halves where the last bit does. -/
def gapBelow (magnitude : ℕ) : ℕ :=
  if mantissa magnitude = leadingBit ∧ 0 < weight magnitude then 1 else 2

/-- The lower end of the interval that rounds to a magnitude. -/
def lowUnits (magnitude : ℕ) : ℕ :=
  (4 * mantissa magnitude - gapBelow magnitude) * 2 ^ weight magnitude

def midUnits (magnitude : ℕ) : ℕ := 4 * mantissa magnitude * 2 ^ weight magnitude

def highUnits (magnitude : ℕ) : ℕ := (4 * mantissa magnitude + 2) * 2 ^ weight magnitude

theorem leadingBit_eq : leadingBit = 4503599627370496 := rfl

theorem mantissa_mod_two (magnitude : ℕ) : mantissa magnitude % 2 = magnitude % 2 := by
  unfold mantissa
  rw [leadingBit_eq]
  split <;> omega

theorem mantissa_lt (magnitude : ℕ) : mantissa magnitude < 2 * leadingBit := by
  unfold mantissa
  rw [leadingBit_eq]
  split <;> omega

/-- From one magnitude to the next the significand grows by one, or it starts again from its least
value with the double weight. -/
theorem succ_cases (magnitude : ℕ) :
    mantissa (magnitude + 1) = mantissa magnitude + 1 ∧ weight (magnitude + 1) = weight magnitude ∧
        gapBelow (magnitude + 1) = 2 ∨
      mantissa magnitude = 2 * leadingBit - 1 ∧ mantissa (magnitude + 1) = leadingBit ∧
        weight (magnitude + 1) = weight magnitude + 1 ∧ gapBelow (magnitude + 1) = 1 := by
  unfold gapBelow mantissa weight
  rw [leadingBit_eq]
  split_ifs <;> omega

/-- The interval of a magnitude ends where that of the next one begins. -/
theorem highUnits_eq_lowUnits (magnitude : ℕ) : highUnits magnitude = lowUnits (magnitude + 1) := by
  unfold highUnits lowUnits
  rcases succ_cases magnitude with ⟨hmantissa, hweight, hgap⟩ | ⟨hlast, hfirst, hweight, hgap⟩
  · have hend : 4 * (mantissa magnitude + 1) - 2 = 4 * mantissa magnitude + 2 := by omega
    rw [hmantissa, hweight, hgap, hend]
  · rw [hlast, hfirst, hweight, hgap, leadingBit_eq, Nat.pow_succ]
    omega

/-- At least a quarter of the last bit lies between the lower end and the magnitude. -/
theorem lowUnits_add_le {magnitude : ℕ} (h : 0 < mantissa magnitude) :
    lowUnits magnitude + 2 ^ weight magnitude ≤ midUnits magnitude := by
  have hgap : 1 ≤ gapBelow magnitude := by
    unfold gapBelow
    split <;> decide
  calc
    _ = (4 * mantissa magnitude - gapBelow magnitude + 1) * 2 ^ weight magnitude := by
      rw [lowUnits, Nat.add_mul, Nat.one_mul]
    _ ≤ _ := Nat.mul_le_mul_right _ (by omega)

theorem midUnits_lt_highUnits (magnitude : ℕ) : midUnits magnitude < highUnits magnitude :=
  Nat.mul_lt_mul_of_pos_right (by omega) (Nat.two_pow_pos _)

theorem lowUnits_lt_highUnits (magnitude : ℕ) : lowUnits magnitude < highUnits magnitude := by
  apply Nat.mul_lt_mul_of_pos_right _ (Nat.two_pow_pos _)
  omega

theorem highUnits_le_lowUnits {magnitude other : ℕ} (h : magnitude < other) :
    highUnits magnitude ≤ lowUnits other := by
  induction other, h using Nat.le_induction with
  | base => exact (highUnits_eq_lowUnits magnitude).le
  | succ other _ ih =>
    calc
      _ ≤ lowUnits other := ih
      _ ≤ highUnits other := (lowUnits_lt_highUnits other).le
      _ = lowUnits (other + 1) := highUnits_eq_lowUnits other

/-! ## Rounding -/

/-- How often one is halved down to the least number. -/
def halvings : ℕ := 1074

/-- How often one is doubled until it is beyond the greatest number. -/
def doublings : ℕ := 1024

def unitsPerOne : ℕ := 4 * 2 ^ halvings

theorem unitsPerOne_pos : 0 < unitsPerOne := Nat.mul_pos (by decide) (Nat.two_pow_pos _)

/-- A ratio lies between the middles to the neighbours of a magnitude. The middles themselves count
when the last bit is zero. -/
structure RoundsTo (magnitude : ℕ) (q : ℚ) : Prop where
  low_le : lowUnits magnitude ≤ q * unitsPerOne
  le_high : q * unitsPerOne ≤ highUnits magnitude
  inside : magnitude % 2 = 1 →
    lowUnits magnitude < q * unitsPerOne ∧ q * unitsPerOne < highUnits magnitude

theorem RoundsTo.le {magnitude other : ℕ} {q : ℚ} (h : RoundsTo magnitude q)
    (hother : RoundsTo other q) : other ≤ magnitude := by
  by_contra! hlt
  have hends : (highUnits magnitude : ℚ) ≤ lowUnits other := by
    exact_mod_cast highUnits_le_lowUnits hlt
  have hnext : other = magnitude + 1 := by
    by_contra hne
    have hbetween : highUnits magnitude < lowUnits other := by
      calc
        _ = lowUnits (magnitude + 1) := highUnits_eq_lowUnits magnitude
        _ < highUnits (magnitude + 1) := lowUnits_lt_highUnits _
        _ ≤ lowUnits other := highUnits_le_lowUnits (by omega)
    have hstrict : (highUnits magnitude : ℚ) < lowUnits other := by exact_mod_cast hbetween
    linarith [h.le_high, hother.low_le]
  rcases Nat.mod_two_eq_zero_or_one magnitude with heven | hodd
  · linarith [(hother.inside (by omega)).1, h.le_high]
  · linarith [(h.inside hodd).2, hother.low_le]

/-- No ratio rounds to two magnitudes. -/
theorem RoundsTo.unique {magnitude other : ℕ} {q : ℚ} (h : RoundsTo magnitude q)
    (hother : RoundsTo other q) : magnitude = other :=
  Nat.le_antisymm (hother.le h) (h.le hother)

theorem significand_eq (x : Binary64) :
    x.significand = (mantissa x.magnitudeBits, (weight x.magnitudeBits : ℤ) - 1074) := by
  unfold significand mantissa weight
  rw [leadingBit_eq]
  dsimp only
  split <;> split <;> simp <;> omega

end Binary64

namespace Decimal

open Binary64

/-- The interval of a number in quarters of the least one. -/
theorem exists_scale (x : Binary64) : ∃ scale > 0,
    (Interval.ofBinary64 x).den * scale = unitsPerOne ∧
    (Interval.ofBinary64 x).low * scale = lowUnits x.magnitudeBits ∧
    (Interval.ofBinary64 x).mid * scale = midUnits x.magnitudeBits ∧
    (Interval.ofBinary64 x).high * scale = highUnits x.magnitudeBits := by
  rw [Interval.ofBinary64, significand_eq]
  generalize hweight : weight x.magnitudeBits = w
  have hgap : (if mantissa x.magnitudeBits = leadingBit ∧ (w : ℤ) - 1074 > -1074 then 1 else 2) =
      gapBelow x.magnitudeBits := by
    rw [gapBelow, hweight]
    congr 2
    simp
  simp only [hgap, lowUnits, midUnits, highUnits, hweight]
  have hhalvings : halvings = 1074 := rfl
  by_cases hw : (w : ℤ) - 1074 ≥ 0
  · refine ⟨2 ^ halvings, Nat.two_pow_pos _, ?_⟩
    have hpow (n : ℕ) : n * Nat.pow 2 ((w : ℤ) - 1074).toNat * 2 ^ halvings = n * 2 ^ w := by
      rw [Nat.pow_eq, Nat.mul_assoc, ← Nat.pow_add]
      congr 2
      omega
    rw [if_pos hw, if_pos hw, hpow, hpow, hpow, Nat.mul_one, unitsPerOne]
    simp only [and_self]
  · refine ⟨2 ^ w, Nat.two_pow_pos _, ?_⟩
    have hpow : Nat.pow 2 (-((w : ℤ) - 1074)).toNat * 2 ^ w = 2 ^ halvings := by
      rw [Nat.pow_eq, ← Nat.pow_add]
      congr 1
      omega
    rw [if_neg hw, if_neg hw, Nat.mul_assoc, hpow, unitsPerOne]
    simp only [Nat.mul_one, and_self]

theorem closed_ofBinary64 (x : Binary64) :
    (Interval.ofBinary64 x).closed = (x.magnitudeBits % 2 == 0) := by
  rw [Interval.ofBinary64, significand_eq]
  dsimp only
  rw [mantissa_mod_two]

/-- The ratios in the interval of a number are those that round to it. -/
theorem contains_iff (x : Binary64) (num : ℕ) {den : ℕ} (hden : 0 < den) :
    (Interval.ofBinary64 x).contains num den ↔ RoundsTo x.magnitudeBits (num / den) := by
  obtain ⟨scale, hscale, hone, hlow, -, hhigh⟩ := exists_scale x
  have hden' : (0 : ℚ) < den := by exact_mod_cast hden
  have hquotient : (num / den : ℚ) * unitsPerOne = (num * unitsPerOne : ℕ) / (den : ℚ) := by
    push_cast
    ring
  have hle (a b : ℕ) : a ≤ b ↔ a * scale ≤ b * scale := (Nat.mul_le_mul_right_iff hscale).symm
  have hnum : num * (Interval.ofBinary64 x).den * scale = num * unitsPerOne := by
    rw [Nat.mul_assoc, hone]
  have hbelow {low units : ℕ} (h : low * scale = units) :
      low * den ≤ num * (Interval.ofBinary64 x).den ↔ (units : ℚ) ≤ num / den * unitsPerOne := by
    rw [hle, Nat.mul_right_comm, h, hnum, hquotient, le_div_iff₀ hden']
    exact_mod_cast Iff.rfl
  have habove {high units : ℕ} (h : high * scale = units) :
      num * (Interval.ofBinary64 x).den ≤ high * den ↔ num / den * unitsPerOne ≤ (units : ℚ) := by
    rw [hle, Nat.mul_right_comm high, h, hnum, hquotient, div_le_iff₀ hden']
    exact_mod_cast Iff.rfl
  rw [Interval.contains, closed_ofBinary64]
  rcases Nat.mod_two_eq_zero_or_one x.magnitudeBits with heven | hodd
  · simp only [heven, beq_self_eq_true, if_true, Bool.and_eq_true, decide_eq_true_eq]
    rw [hbelow hlow, habove hhigh]
    exact ⟨fun h ↦ ⟨h.1, h.2, fun hodd ↦ by omega⟩, fun h ↦ ⟨h.low_le, h.le_high⟩⟩
  · simp only [hodd, Nat.one_ne_zero, beq_iff_eq, if_false, Bool.and_eq_true, decide_eq_true_eq]
    rw [← Nat.not_le, ← Nat.not_le, habove hlow, hbelow hhigh, not_le, not_le]
    exact ⟨fun h ↦ ⟨h.1.le, h.2.le, fun _ ↦ h⟩, fun h ↦ h.inside hodd⟩

end Decimal

end ManifestTree
