import ManifestTree.Number.Binary64

/-!
# Shortest decimal text of a binary64 number

Among the decimal numbers that round to a given binary64 number, the ones with fewest digits are
wanted, and among those the nearest; an exact tie goes to the even last digit. `shortest` tests the
two neighbours of the number on the grids of one, two, up to seventeen digits. `Layout` says how
the digits are laid out in a text.
-/

namespace ManifestTree

/-- Significant digits without leading or trailing zeros, and the decimal exponent of the first. -/
structure Decimal where
  digits : Nat
  exponent : Int
  deriving DecidableEq, Repr

namespace Decimal

def reaches (num den factor : Nat) (power : Int) : Bool :=
  if power ≥ 0 then num ≥ factor * Nat.pow 10 power.toNat * den
  else num * Nat.pow 10 (-power).toNat ≥ factor * den

/-- The greatest power of ten that is at most the positive ratio. -/
def decimalExponent (num den : Nat) : Int :=
  let guess : Int := (((num.log2 : Int) - (den.log2 : Int)) * 30103).fdiv 100000
  if reaches num den 1 (guess + 1) then guess + 1
  else if reaches num den 1 guess then guess
  else guess - 1

/-- Positive ratios that round to one binary64 number. -/
structure Interval where
  den : Nat
  low : Nat
  mid : Nat
  high : Nat
  closed : Bool

/-- The ratios that round to a nonzero number: half the gap on each side, the ends exactly when the
significand is even. -/
def Interval.ofBinary64 (x : Binary64) : Interval :=
  let (mantissa, power) := x.significand
  let lowGap := if mantissa = Binary64.leadingBit ∧ power > -1074 then 1 else 2
  let scale := if power ≥ 0 then Nat.pow 2 power.toNat else 1
  let den := 4 * if power ≥ 0 then 1 else Nat.pow 2 (-power).toNat
  ⟨den, (4 * mantissa - lowGap) * scale, 4 * mantissa * scale, (4 * mantissa + 2) * scale,
    mantissa % 2 == 0⟩

def Interval.contains (range : Interval) (num den : Nat) : Bool :=
  let scaled := num * range.den
  if range.closed then range.low * den ≤ scaled && scaled ≤ range.high * den
  else range.low * den < scaled && scaled < range.high * den

/-- The nearer of the two neighbours on the grid of step `10 ^ power` that lie in the interval. -/
def onGrid (range : Interval) (power : Int) : Option Nat :=
  let up := if power ≥ 0 then Nat.pow 10 power.toNat else 1
  let down := if power ≥ 0 then 1 else Nat.pow 10 (-power).toNat
  let below := range.mid * down / (range.den * up)
  let inside := fun digits ↦ range.contains (digits * up) down
  let twice := 2 * range.mid * down
  let middle := (2 * below + 1) * up * range.den
  match inside below, inside (below + 1) with
  | true, true =>
    if twice < middle then some below
    else if twice > middle then some (below + 1)
    else some (if below % 2 = 0 then below else below + 1)
  | true, false => some below
  | false, true => some (below + 1)
  | false, false => none

/-- The first grid, from the coarsest, that holds a number of the interval. -/
def search (range : Interval) (exponent : Int) : Nat → Nat → Nat × Int
  | 0, _ => (range.mid / range.den, 0)
  | steps + 1, length =>
    let power := exponent - (length : Int) + 1
    match onGrid range power with
    | some digits =>
      if digits = 0 then search range exponent steps (length + 1) else (digits, power)
    | none => search range exponent steps (length + 1)

def stripZeros : Nat → Nat → Int → Nat × Int
  | 0, digits, power => (digits, power)
  | steps + 1, digits, power =>
    if digits % 10 = 0 then stripZeros steps (digits / 10) (power + 1) else (digits, power)

/-- The shortest decimal that rounds to a nonzero number. -/
def shortest (x : Binary64) : Decimal :=
  let range := Interval.ofBinary64 x
  let exponent := decimalExponent range.mid range.den
  let (raw, rawPower) := search range exponent 18 1
  let (digits, power) := stripZeros 20 raw rawPower
  ⟨digits, power + ((Nat.toDigits 10 digits).length : Int) - 1⟩

/-- How the digits of a number are laid out. -/
structure Layout where
  /-- Least decimal exponent written positionally. -/
  leastPositional : Int
  /-- First decimal exponent that is again written with an exponent. -/
  firstScientific : Int
  plus : String

/-- Numbers in data text and source: positional from `1e-5` to below `1e16`, with a plus sign. -/
def dataLayout : Layout := ⟨-5, 16, "+"⟩

/-- Numbers in a document stream: as in data text, but without the plus sign. -/
def streamLayout : Layout := ⟨-5, 16, ""⟩

/-- The digits at a decimal exponent, laid out with a fraction or an exponent. -/
def Layout.write (layout : Layout) (number : Decimal) : String :=
  let digits := Nat.toDigits 10 number.digits
  let exponent := number.exponent
  if layout.leastPositional ≤ exponent ∧ exponent < layout.firstScientific then
    if exponent < 0 then
      "0." ++ String.ofList (List.replicate ((-exponent).toNat - 1) '0' ++ digits)
    else
      let whole := exponent.toNat + 1
      let padded := digits ++ List.replicate (whole - digits.length) '0'
      let fraction := padded.drop whole
      String.ofList (padded.take whole) ++ "."
        ++ String.ofList (if fraction.isEmpty then ['0'] else fraction)
  else
    let fraction := digits.drop 1
    String.ofList (digits.take 1)
      ++ (if fraction.isEmpty then "" else "." ++ String.ofList fraction)
      ++ "e" ++ (if exponent < 0 then "-" else layout.plus) ++ toString exponent.natAbs

/-- The text of a finite number, the sign of zero kept. -/
def Layout.text (layout : Layout) (x : Binary64) : String :=
  let sign := if x.isNegative then "-" else ""
  if x.isZero then sign ++ "0.0" else sign ++ layout.write (shortest x)

end Decimal
end ManifestTree
