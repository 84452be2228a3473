/-!
# Binary64 numbers as words

A finite binary64 number is kept as its 64-bit word, so that equality is decidable and every
operation is exact integer arithmetic. A magnitude is a ratio of naturals; `ofRatio` rounds one to
the nearest representable number, a half going to the even neighbour, and answers nothing when the
result would be infinite.
-/

namespace ManifestTree

/-- A binary64 number, given by its word. -/
structure Binary64 where
  /-- Sign, biased exponent and fraction, from the highest bit down. -/
  bits : UInt64
  deriving DecidableEq, Repr, Inhabited

namespace Binary64

abbrev signBit : Nat := Nat.pow 2 63

/-- The bit in front of the fraction of a normal number, as a number. -/
abbrev leadingBit : Nat := Nat.pow 2 52

def isNegative (x : Binary64) : Bool := x.bits.toNat ≥ signBit

def magnitudeBits (x : Binary64) : Nat := x.bits.toNat % signBit

def isZero (x : Binary64) : Bool := x.magnitudeBits == 0

/-- The number with the given word below the sign bit. -/
def ofMagnitudeBits (negative : Bool) (magnitude : Nat) : Binary64 :=
  ⟨UInt64.ofNat (magnitude % signBit + if negative then signBit else 0)⟩

def zero : Binary64 := ofMagnitudeBits false 0

def withSign (x : Binary64) (negative : Bool) : Binary64 :=
  ofMagnitudeBits negative x.magnitudeBits

/-- Significand and power of two whose product is the magnitude. -/
def significand (x : Binary64) : Nat × Int :=
  let exponent : Nat := x.magnitudeBits / leadingBit
  let fraction : Nat := x.magnitudeBits % leadingBit
  if exponent = 0 then (fraction, -1074) else (fraction + leadingBit, (exponent : Int) - 1075)

def ratio (x : Binary64) : Nat × Nat :=
  let (mantissa, power) := x.significand
  if power ≥ 0 then (mantissa * Nat.pow 2 power.toNat, 1)
  else (mantissa, Nat.pow 2 (-power).toNat)

/-- Numerically equal: the two zeros are one number. -/
def sameValue (x y : Binary64) : Bool := x == y || (x.isZero && y.isZero)

/-- The quotient rounded to a natural, a half to the even neighbour. -/
def roundDiv (num den : Nat) : Nat :=
  let quotient := num / den
  let twice := 2 * (num % den)
  if twice > den || (twice == den && quotient % 2 == 1) then quotient + 1 else quotient

/-- The greatest power of two that is at most the positive ratio. -/
def binaryExponent (num den : Nat) : Int :=
  let guess : Int := (num.log2 : Int) - (den.log2 : Int)
  let reached :=
    if guess ≥ 0 then num ≥ den * Nat.pow 2 guess.toNat
    else num * Nat.pow 2 (-guess).toNat ≥ den
  if reached then guess else guess - 1

/-- The nearest number to a ratio, without sign, unless it lies beyond the greatest finite one. -/
def ofRatio (num den : Nat) : Option Binary64 :=
  if num = 0 then some zero
  else
    let power := max (binaryExponent num den - 52) (-1074)
    let mantissa :=
      if power ≥ 0 then roundDiv num (den * Nat.pow 2 power.toNat)
      else roundDiv (num * Nat.pow 2 (-power).toNat) den
    let magnitude :=
      if mantissa < leadingBit then mantissa
      else (power + 1075).toNat * leadingBit + (mantissa - leadingBit)
    if magnitude < 2047 * leadingBit then some (ofMagnitudeBits false magnitude) else none

def mul (x y : Binary64) : Option Binary64 :=
  ofRatio (x.ratio.1 * y.ratio.1) (x.ratio.2 * y.ratio.2)

/-- The rounded quotient of two magnitudes, zero when the divisor is zero. -/
def div (x y : Binary64) : Option Binary64 :=
  ofRatio (x.ratio.1 * y.ratio.2) (x.ratio.2 * y.ratio.1)

def powerOfTen (exponent : Nat) : Option Binary64 := ofRatio (Nat.pow 10 exponent) 1

/-- The nearest number to `digits * 10 ^ exponent`, where `count` is the decimal length of
`digits`. -/
def ofDecimal (digits count : Nat) (exponent : Int) : Option Binary64 :=
  if digits = 0 then some zero
  else if exponent > 400 then none
  else if exponent + count < -400 then some zero
  else if exponent ≥ 0 then ofRatio (digits * Nat.pow 10 exponent.toNat) 1
  else ofRatio digits (Nat.pow 10 (-exponent).toNat)

end Binary64
end ManifestTree
