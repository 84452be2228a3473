import ManifestTree.Number.Digits
import ManifestTree.Toml.Value

/-!
# Words of table files

The words without quotes that stand for values: truth values, integers of 64 bits to four bases,
real numbers, and moments of the calendar. Digits may be grouped by single underscores.
-/

namespace ManifestTree.Toml.Word

open Digits (digit? natural? unsigned decimal?)

/-- Digits of a kind, single underscores between them. -/
def isGrouped (isDigit : Char → Bool) : List Char → Bool
  | [] => false
  | [c] => isDigit c
  | c :: '_' :: rest => isDigit c && isGrouped isDigit rest
  | c :: rest => isDigit c && isGrouped isDigit rest

def isDigitOf (base : Nat) (c : Char) : Bool := (digit? base c).isSome

def grouped? (base : Nat) (cs : List Char) : Option Nat :=
  if isGrouped (isDigitOf base) cs then natural? base (cs.filter (· != '_')) else none

def hasLeadingZero (cs : List Char) : Bool := cs.head? == some '0' && cs.length > 1

def integer? (cs : List Char) : Option Int := do
  let value : Int ← match cs with
    | '0' :: 'x' :: digits => (grouped? 16 digits).map Int.ofNat
    | '0' :: 'o' :: digits => (grouped? 8 digits).map Int.ofNat
    | '0' :: 'b' :: digits => (grouped? 2 digits).map Int.ofNat
    | cs =>
      let (isNegative, digits) := unsigned cs
      if hasLeadingZero digits then none
      else (grouped? 10 digits).map fun size ↦ if isNegative then -(size : Int) else size
  if -(Nat.pow 2 63 : Int) ≤ value ∧ value < Nat.pow 2 63 then pure value else none

def isExponent (cs : List Char) : Bool := isGrouped Char.isDigit (unsigned cs).2

/-- A fraction behind its point, perhaps with an exponent. -/
def isFraction (cs : List Char) : Bool :=
  let isDigit := fun c : Char ↦ c.isDigit || c == '_'
  isGrouped Char.isDigit (cs.takeWhile isDigit)
    && (match cs.dropWhile isDigit with
      | [] => true
      | letter :: rest => (letter == 'e' || letter == 'E') && isExponent rest)

/-- A real number without sign: an integer part, and a fraction or an exponent or both. -/
def isUnsignedReal (cs : List Char) : Bool :=
  let isDigit := fun c : Char ↦ c.isDigit || c == '_'
  let whole := cs.takeWhile isDigit
  isGrouped Char.isDigit whole && !hasLeadingZero whole
    && (match cs.dropWhile isDigit with
      | '.' :: rest => isFraction rest
      | 'e' :: rest => isExponent rest
      | 'E' :: rest => isExponent rest
      | _ => false)

/-- A real number. A positive one must not exceed the greatest of 64 bits. -/
def isReal (cs : List Char) : Bool :=
  let (isNegative, digits) := unsigned cs
  digits == ['i', 'n', 'f'] || digits == ['n', 'a', 'n']
    || (isUnsignedReal digits
      && (isNegative || (decimal? (digits.filter (· != '_'))).isSome))

/-! ## Moments -/

/-- A number of exactly so many digits at the front, in a range, and what follows. -/
def digits? (width least most : Nat) (cs : List Char) : Option (Nat × List Char) := do
  let value ← Digits.fixed? 10 width cs
  if least ≤ value ∧ value ≤ most then pure (value, cs.drop width) else none

def after? (c : Char) : List Char → Option (List Char)
  | front :: rest => if front = c then some rest else none
  | [] => none

def daysIn (year month : Nat) : Nat :=
  if month = 2 then
    if year % 4 = 0 ∧ (year % 100 ≠ 0 ∨ year % 400 = 0) then 29 else 28
  else if month = 4 ∨ month = 6 ∨ month = 9 ∨ month = 11 then 30
  else 31

def afterDate? (cs : List Char) : Option (List Char) := do
  let (year, rest) ← digits? 4 0 9999 cs
  let (month, rest) ← digits? 2 1 12 (← after? '-' rest)
  let (_, rest) ← digits? 2 1 (daysIn year month) (← after? '-' rest)
  pure rest

/-- The text behind the digits of a fraction of a second, if there is one. -/
def afterFraction? : List Char → Option (List Char)
  | '.' :: rest => if rest.head?.any Char.isDigit then some (rest.dropWhile Char.isDigit) else none
  | rest => some rest

/-- The text behind a time of day; the later edition allows it without seconds. -/
def afterTime? (edition : Edition) (cs : List Char) : Option (List Char) := do
  let (_, rest) ← digits? 2 0 23 cs
  let (_, rest) ← digits? 2 0 59 (← after? ':' rest)
  match rest with
  | ':' :: rest =>
    let (_, rest) ← digits? 2 0 60 rest
    afterFraction? rest
  | rest => if edition = .second then pure rest else none

/-- A shift from universal time: the letter, or hours and minutes. -/
def isOffset (cs : List Char) : Bool :=
  cs == ['Z'] || cs == ['z']
    || (match cs with
      | sign :: rest =>
        (sign == '+' || sign == '-')
          && (do
            let (_, rest) ← digits? 2 0 23 rest
            let (_, rest) ← digits? 2 0 59 (← after? ':' rest)
            pure rest.isEmpty).getD false
      | [] => false)

def isTimeOfDate (edition : Edition) (cs : List Char) : Bool :=
  match afterTime? edition cs with
  | some rest => rest.isEmpty || isOffset rest
  | none => false

def isMoment (edition : Edition) (cs : List Char) : Bool :=
  match afterDate? cs with
  | some [] => true
  | some (mark :: rest) => (mark == 'T' || mark == 't' || mark == ' ') && isTimeOfDate edition rest
  | none => afterTime? edition cs == some []

def value? (edition : Edition) (cs : List Char) : Option Value :=
  if cs = "true".toList then some (.truth true)
  else if cs = "false".toList then some (.truth false)
  else
    match integer? cs with
    | some value => some (.integer value)
    | none =>
      if isReal cs then some (.real (String.ofList cs))
      else if isMoment edition cs then some (.moment (String.ofList cs))
      else none

end ManifestTree.Toml.Word
