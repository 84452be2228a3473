import ManifestTree.Json.Text
import ManifestTree.Number.Digits

/-!
# Reading data text

A strict reader: one value surrounded by blanks, nothing after it, at most 127 collections inside
one another. `read?` keeps repeated keys in the members so that a decoder can refuse them;
`parse?` reduces them to first place and last value. An integer token beyond 64 bits, a fraction,
an exponent and the negative zero give a binary64 number: the leading digits that fit 64 bits are
rounded and then scaled by a rounded power of ten.
-/

namespace ManifestTree.Json

def isBlank (c : Char) : Bool := c == ' ' || c == '\t' || c == '\n' || c == '\x0d'

def skipBlanks (cs : List Char) : List Char := cs.dropWhile isBlank

def hexWord? (cs : List Char) : Option (Nat × List Char) :=
  (Digits.fixed? 16 4 cs).map fun word ↦ (word, cs.drop 4)

/-- The character of a `\u` escape, two of them when the first is the upper half of a pair. -/
def unicodeEscape? (cs : List Char) : Option (Char × List Char) := do
  let (high, rest) ← hexWord? cs
  if 0xDC00 ≤ high ∧ high ≤ 0xDFFF then none
  else if 0xD800 ≤ high ∧ high ≤ 0xDBFF then
    match rest with
    | '\\' :: 'u' :: rest =>
      let (low, rest) ← hexWord? rest
      if 0xDC00 ≤ low ∧ low ≤ 0xDFFF then
        pure (Char.ofNat (0x10000 + (high - 0xD800) * 0x400 + (low - 0xDC00)), rest)
      else none
    | _ => none
  else pure (Char.ofNat high, rest)

def stringBody? : Nat → List Char → List Char → Option (String × List Char)
  | 0, _, _ => none
  | _, _, [] => none
  | fuel + 1, done, c :: rest =>
    if c = '"' then some (String.ofList done.reverse, rest)
    else if c = '\\' then
      match rest with
      | '"' :: rest => stringBody? fuel ('"' :: done) rest
      | '\\' :: rest => stringBody? fuel ('\\' :: done) rest
      | '/' :: rest => stringBody? fuel ('/' :: done) rest
      | 'b' :: rest => stringBody? fuel ('\x08' :: done) rest
      | 'f' :: rest => stringBody? fuel ('\x0c' :: done) rest
      | 'n' :: rest => stringBody? fuel ('\n' :: done) rest
      | 'r' :: rest => stringBody? fuel ('\x0d' :: done) rest
      | 't' :: rest => stringBody? fuel ('\t' :: done) rest
      | 'u' :: rest =>
        match unicodeEscape? rest with
        | some (escaped, rest) => stringBody? fuel (escaped :: done) rest
        | none => none
      | _ => none
    else if c.toNat < 32 then none
    else stringBody? fuel (c :: done) rest

def digitSpan (cs : List Char) : List Nat × List Char :=
  ((cs.takeWhile Char.isDigit).filterMap (Digits.digit? 10), cs.dropWhile Char.isDigit)

/-- Digits appended to a 64-bit significand until one no longer fits; the count of those appended
and the digits left. -/
def absorbDigits (significand count : Nat) : List Nat → Nat × Nat × List Nat
  | [] => (significand, count, [])
  | digit :: rest =>
    let next := significand * 10 + digit
    if next < Nat.pow 2 64 then absorbDigits next (count + 1) rest
    else (significand, count, digit :: rest)

/-- A significand scaled by a power of ten: one rounded multiplication or division, after divisions
by `1e308` where the power is smaller still. -/
def scaled? : Nat → Binary64 → Int → Option Binary64
  | 0, value, _ => some value
  | steps + 1, value, exponent =>
    if exponent.natAbs ≤ 308 then do
      let power ← Binary64.powerOfTen exponent.natAbs
      if exponent ≥ 0 then value.mul power else value.div power
    else if value.isZero then some value
    else if exponent ≥ 0 then none
    else do
      let power ← Binary64.powerOfTen 308
      let smaller ← value.div power
      scaled? steps smaller (exponent + 308)

/-- The number of a sign, a significand and a power of ten. -/
def realNumber? (negative : Bool) (significand : Nat) (exponent : Int) : Option Number := do
  let whole ← Binary64.ofRatio significand 1
  let value ← scaled? 4 whole exponent
  pure (.real (value.withSign negative))

/-- A signed exponent behind its letter, unless it has no digit. -/
def exponent? (cs : List Char) : Option (Bool × List Nat × List Char) :=
  let (negative, cs) := match cs with
    | '+' :: rest => (false, rest)
    | '-' :: rest => (true, rest)
    | _ => (false, cs)
  match digitSpan cs with
  | ([], _) => none
  | (digits, rest) => some (negative, digits, rest)

/-- The number of a sign, a significand and a power of ten, an exponent still to be read. -/
def finishReal? (negative : Bool) (significand : Nat) (power : Int) (cs : List Char) :
    Option (Number × List Char) := do
  if cs.head? = some 'e' ∨ cs.head? = some 'E' then
    let (down, digits, rest) ← exponent? (cs.drop 1)
    let size : Nat := digits.foldl (fun total digit ↦ min (total * 10 + digit) (Nat.pow 2 31)) 0
    if size ≥ Nat.pow 2 31 then
      if significand = 0 ∨ down then pure (.real (Binary64.zero.withSign negative), rest)
      else none
    else
      let number ← realNumber? negative significand
        (if down then power - (size : Int) else power + (size : Int))
      pure (number, rest)
  else
    let number ← realNumber? negative significand power
    pure (number, cs)

/-- The number of an integer part that still fits, or has lost some digits, with what follows it. -/
def fraction? (negative : Bool) (significand dropped : Nat) (cs : List Char) :
    Option (Number × List Char) := do
  match cs with
  | '.' :: rest =>
    let (digits, rest) := digitSpan rest
    if digits.isEmpty then none
    let (significand, taken, _) := absorbDigits significand 0 digits
    finishReal? negative significand ((dropped : Int) - taken) rest
  | _ => finishReal? negative significand dropped cs

/-- An integer of a sign and a magnitude, the negative zero and what lies beyond 64 bits becoming
reals. -/
def integerNumber (negative : Bool) (magnitude : Nat) : Number :=
  if !negative then .integer magnitude
  else if magnitude = 0 ∨ magnitude > Nat.pow 2 63 then
    .real (((Binary64.ofRatio magnitude 1).getD Binary64.zero).withSign true)
  else .integer (-(magnitude : Int))

def unsigned? (negative : Bool) (cs : List Char) : Option (Number × List Char) :=
  match digitSpan cs with
  | ([], _) => none
  | (0 :: _ :: _, _) => none
  | (digits, rest) =>
    let (significand, _, left) := absorbDigits 0 0 digits
    if left.isEmpty && !rest.head?.any (fun c ↦ c == '.' || c == 'e' || c == 'E') then
      some (integerNumber negative significand, rest)
    else fraction? negative significand left.length rest

def number? : List Char → Option (Number × List Char)
  | '-' :: rest => unsigned? true rest
  | cs => unsigned? false cs

def word? (expected : String) (cs : List Char) : Option (List Char) :=
  if expected.toList.isPrefixOf cs then some (cs.drop expected.length) else none

mutual

/-- A value at the front of the text, with the collections it may still open. -/
def value? : Nat → Nat → List Char → Option (Json × List Char)
  | 0, _, _ => none
  | fuel + 1, depth, cs =>
    match skipBlanks cs with
    | [] => none
    | 'n' :: rest => (word? "ull" rest).map fun rest ↦ (null, rest)
    | 't' :: rest => (word? "rue" rest).map fun rest ↦ (bool true, rest)
    | 'f' :: rest => (word? "alse" rest).map fun rest ↦ (bool false, rest)
    | '"' :: rest =>
      (stringBody? (rest.length + 1) [] rest).map fun (text, rest) ↦ (string text, rest)
    | '[' :: rest =>
      if depth ≤ 1 then none
      else
        match skipBlanks rest with
        | ']' :: rest => some (array [], rest)
        | rest => (items? fuel (depth - 1) rest).map fun (items, rest) ↦ (array items, rest)
    | '\x7b' :: rest =>
      if depth ≤ 1 then none
      else
        match skipBlanks rest with
        | '\x7d' :: rest => some (object [], rest)
        | rest =>
          (members? fuel (depth - 1) rest).map fun (members, rest) ↦ (object members, rest)
    | rest => (number? rest).map fun (value, rest) ↦ (number value, rest)

def items? : Nat → Nat → List Char → Option (List Json × List Char)
  | 0, _, _ => none
  | fuel + 1, depth, cs => do
    let (item, rest) ← value? fuel depth cs
    match skipBlanks rest with
    | ']' :: rest => pure ([item], rest)
    | ',' :: rest =>
      let (items, rest) ← items? fuel depth rest
      pure (item :: items, rest)
    | _ => none

def members? : Nat → Nat → List Char → Option (Members × List Char)
  | 0, _, _ => none
  | fuel + 1, depth, cs => do
    match skipBlanks cs with
    | '"' :: rest =>
      let (key, rest) ← stringBody? (rest.length + 1) [] rest
      match skipBlanks rest with
      | ':' :: rest =>
        let (value, rest) ← value? fuel depth rest
        match skipBlanks rest with
        | '\x7d' :: rest => pure ([(key, value)], rest)
        | ',' :: rest =>
          let (members, rest) ← members? fuel depth rest
          pure ((key, value) :: members, rest)
        | _ => none
      | _ => none
    | _ => none

end

/-- How many levels a text may hold: collections nest at most one less deep. -/
def depthLimit : Nat := 128

/-- The value that the whole text holds, repeated keys kept. -/
def read? (text : String) : Option Json :=
  let cs := text.toList
  match value? (2 * cs.length + 2) depthLimit cs with
  | some (value, rest) => if (skipBlanks rest).isEmpty then some value else none
  | none => none

/-- The value that the whole text holds, a repeated key keeping its first place and last value. -/
def parse? (text : String) : Option Json := (read? text).map collapse

end ManifestTree.Json
