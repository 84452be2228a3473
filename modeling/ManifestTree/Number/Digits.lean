import ManifestTree.Number.Binary64

/-!
# Digits

Numbers written with digits: naturals to a base up to sixteen, digits of a fixed count, and decimal
numbers with a fraction and an exponent. Letters of either case count as digits.
-/

namespace ManifestTree.Digits

def digit? (base : Nat) (c : Char) : Option Nat := do
  let value ←
    if '0' ≤ c ∧ c ≤ '9' then some (c.toNat - '0'.toNat)
    else if 'a' ≤ c ∧ c ≤ 'f' then some (c.toNat - 'a'.toNat + 10)
    else if 'A' ≤ c ∧ c ≤ 'F' then some (c.toNat - 'A'.toNat + 10)
    else none
  if value < base then some value else none

/-- The number that digits to a base denote, if there are any. -/
def natural? (base : Nat) (cs : List Char) : Option Nat :=
  if cs.isEmpty then none
  else (cs.mapM (digit? base)).map fun digits ↦
    digits.foldl (fun total digit ↦ total * base + digit) 0

/-- The number that exactly `width` digits at the front denote. -/
def fixed? (base width : Nat) (cs : List Char) : Option Nat :=
  let front := cs.take width
  if front.length = width then natural? base front else none

/-- The character with the number that exactly `width` hexadecimal digits at the front denote. -/
def character? (width : Nat) (cs : List Char) : Option Char := do
  let number ← fixed? 16 width cs
  if (0xD800 ≤ number ∧ number ≤ 0xDFFF) ∨ number > 0x10FFFF then none
  else pure (Char.ofNat number)

/-- Whether a text starts with a minus sign, and what follows its sign. -/
def unsigned : List Char → Bool × List Char
  | '-' :: rest => (true, rest)
  | '+' :: rest => (false, rest)
  | rest => (false, rest)

def exponent? (cs : List Char) : Option Int :=
  let (isNegative, digits) := unsigned cs
  (natural? 10 digits).map fun size ↦ if isNegative then -(size : Int) else size

/-- Digits with an optional point among them and an optional exponent behind them: the digits as a
number, their count, and the power of ten of the last. -/
def scaled? (cs : List Char) : Option (Nat × Nat × Int) := do
  let whole := cs.takeWhile Char.isDigit
  let rest := cs.dropWhile Char.isDigit
  let (fraction, rest) := match rest with
    | '.' :: rest => (rest.takeWhile Char.isDigit, rest.dropWhile Char.isDigit)
    | rest => ([], rest)
  let digits := whole ++ fraction
  let mantissa ← natural? 10 digits
  let exponent ← match rest with
    | [] => some 0
    | letter :: rest => if letter = 'e' ∨ letter = 'E' then exponent? rest else none
  pure (mantissa, digits.length, exponent - fraction.length)

/-- The nearest number to a decimal number without sign, unless it lies beyond the greatest one. -/
def decimal? (cs : List Char) : Option Binary64 := do
  let (mantissa, count, exponent) ← scaled? cs
  Binary64.ofDecimal mantissa count exponent

end ManifestTree.Digits
