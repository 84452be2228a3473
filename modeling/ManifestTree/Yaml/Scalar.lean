import ManifestTree.Json.Basic
import ManifestTree.Number.Digits

/-!
# What plain texts mean

A text without quotes may be a word for nothing or for a truth value, or a number; everything else
is a string. Numbers are decimal, or hexadecimal, octal or binary integers; a decimal number with
needless leading zeros is a string. Integers beyond 64 bits are refused as long as they fit 128
bits.
-/

namespace ManifestTree.Yaml.Scalar

open Digits (natural? unsigned decimal?)

def isNullWord (text : String) : Bool := ["null", "Null", "NULL", "~"].contains text

def truth? (text : String) : Option Bool :=
  if ["true", "True", "TRUE"].contains text then some true
  else if ["false", "False", "FALSE"].contains text then some false
  else none

def hasNeedlessZeros (cs : List Char) : Bool :=
  cs.head? == some '0' && cs.length > 1 && cs.all Char.isDigit

def magnitude? (cs : List Char) : Option Nat :=
  match cs with
  | '0' :: 'x' :: digits => natural? 16 digits
  | '0' :: 'o' :: digits => natural? 8 digits
  | '0' :: 'b' :: digits => natural? 2 digits
  | digits => if hasNeedlessZeros digits then none else natural? 10 digits

inductive IntegerText where
  | fits (value : Int)
  | refused
  | none
  deriving DecidableEq, Repr

def integer (text : String) : IntegerText :=
  let (isNegative, digits) := unsigned text.toList
  match magnitude? digits with
  | .none => .none
  | some magnitude =>
    if isNegative then
      if magnitude ≤ Nat.pow 2 63 then .fits (-(magnitude : Int))
      else if magnitude ≤ Nat.pow 2 127 then .refused
      else .none
    else if magnitude < Nat.pow 2 64 then .fits magnitude
    else if magnitude < Nat.pow 2 128 then .refused
    else .none

/-- A text for a number that is no integer. -/
inductive RealText where
  | finite (value : Binary64)
  | other

def real? (text : String) : Option RealText :=
  let (isNegative, digits) := unsigned text.toList
  let word := String.ofList digits
  if [".inf", ".Inf", ".INF"].contains word then some .other
  else if [".nan", ".NaN", ".NAN"].contains text then some .other
  else (decimal? digits).map fun value ↦ .finite (value.withSign isNegative)

/-- The value of a real number; what is not finite has none. -/
def RealText.value : RealText → Json
  | finite value => .number (.real value)
  | other => .null

def value? (text : String) : Option Json :=
  if text.isEmpty || isNullWord text then some .null
  else
    match truth? text with
    | some value => some (.bool value)
    | none =>
      match integer text with
      | .fits value => some (.number (.integer value))
      | .refused => none
      | .none =>
        if hasNeedlessZeros (unsigned text.toList).2 then some (.string text)
        else some (((real? text).map RealText.value).getD (.string text))

/-! ## Tagged texts -/

def coreTag (word : String) : String := "tag:yaml.org,2002:" ++ word

/-- The value of a text with a tag: a word or number of the tag's kind, or else a string. -/
def tagged? (tag text : String) : Option Json :=
  if tag = coreTag "null" then if isNullWord text then some .null else none
  else if tag = coreTag "bool" then (truth? text).map .bool
  else if tag = coreTag "int" then
    match integer text with
    | .fits value => some (.number (.integer value))
    | _ => none
  else if tag = coreTag "float" then (real? text).map RealText.value
  else some (.string text)

end ManifestTree.Yaml.Scalar
