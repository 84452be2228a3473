import ManifestTree.Json.Basic

/-!
# Data text

Two written forms of a value: compact text without any blank, and text indented by two blanks per
level. A string escapes the quote, the backslash and the controls below the blank, and nothing else.
-/

namespace ManifestTree.Json

/-- The lower-case hexadecimal digits of a number, padded with zeros to a width. -/
def hexDigits (width value : Nat) : String :=
  let digits := Nat.toDigits 16 value
  String.ofList (List.replicate (width - digits.length) '0' ++ digits)

def escapeChar (c : Char) : String :=
  if c = '"' then "\\\""
  else if c = '\\' then "\\\\"
  else if c = '\x08' then "\\b"
  else if c = '\x0c' then "\\f"
  else if c = '\n' then "\\n"
  else if c = '\x0d' then "\\r"
  else if c = '\t' then "\\t"
  else if c.toNat < 32 then "\\u" ++ hexDigits 4 c.toNat
  else c.toString

def quote (text : String) : String :=
  "\"" ++ text.foldl (fun out c ↦ out ++ escapeChar c) "" ++ "\""

def numberText (layout : Decimal.Layout) : Number → String
  | .integer value => toString value
  | .real value => layout.text value

def boolText : Bool → String
  | true => "true"
  | false => "false"

mutual

def compact : Json → String
  | null => "null"
  | bool value => boolText value
  | number value => numberText Decimal.dataLayout value
  | string value => quote value
  | array items => "[" ++ compactItems items ++ "]"
  | object members => "\x7b" ++ compactMembers members ++ "\x7d"

def compactItems : List Json → String
  | [] => ""
  | [item] => item.compact
  | item :: rest => item.compact ++ "," ++ compactItems rest

def compactMembers : List (String × Json) → String
  | [] => ""
  | [(key, value)] => quote key ++ ":" ++ value.compact
  | (key, value) :: rest => quote key ++ ":" ++ value.compact ++ "," ++ compactMembers rest

end

def lineAt (depth : Nat) : String := "\n" ++ String.ofList (List.replicate (2 * depth) ' ')

mutual

/-- The indented text of a value that stands at a depth. -/
def prettyAt (depth : Nat) : Json → String
  | array [] => "[]"
  | array (item :: rest) =>
    "[" ++ prettyItems (depth + 1) (item :: rest) ++ lineAt depth ++ "]"
  | object [] => "\x7b\x7d"
  | object (member :: rest) =>
    "\x7b" ++ prettyMembers (depth + 1) (member :: rest) ++ lineAt depth ++ "\x7d"
  | value => value.compact

def prettyItems (depth : Nat) : List Json → String
  | [] => ""
  | [item] => lineAt depth ++ prettyAt depth item
  | item :: rest => lineAt depth ++ prettyAt depth item ++ "," ++ prettyItems depth rest

def prettyMembers (depth : Nat) : List (String × Json) → String
  | [] => ""
  | [(key, value)] => lineAt depth ++ quote key ++ ": " ++ prettyAt depth value
  | (key, value) :: rest =>
    lineAt depth ++ quote key ++ ": " ++ prettyAt depth value ++ "," ++ prettyMembers depth rest

end

def pretty (value : Json) : String := prettyAt 0 value

end ManifestTree.Json
