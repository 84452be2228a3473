import ManifestTree.Json.Text
import ManifestTree.Text.Visible

/-!
# Literals of generated source

A string literal of the generated source escapes quotes, backslashes and characters that cannot be
shown; a data literal is written like data text with blanks behind commas and colons, but with the
escapes of string literals.
-/

namespace ManifestTree.Source

def escapeChar (c : Char) : String :=
  if c = '\x00' then "\\0"
  else if c = '\t' then "\\t"
  else if c = '\x0d' then "\\r"
  else if c = '\n' then "\\n"
  else if c = '"' then "\\\""
  else if c = '\\' then "\\\\"
  else if Text.isVisible c then c.toString
  else "\\u\x7b" ++ String.ofList (Nat.toDigits 16 c.toNat) ++ "\x7d"

def quote (text : String) : String :=
  "\"" ++ text.foldl (fun out c ↦ out ++ escapeChar c) "" ++ "\""

mutual

def dataLiteral : Json → String
  | .null => "null"
  | .bool value => Json.boolText value
  | .number value => Json.numberText Decimal.dataLayout value
  | .string value => quote value
  | .array items => "[" ++ itemLiterals items ++ "]"
  | .object members => "\x7b" ++ memberLiterals members ++ "\x7d"

def itemLiterals : List Json → String
  | [] => ""
  | [item] => dataLiteral item
  | item :: rest => dataLiteral item ++ ", " ++ itemLiterals rest

def memberLiterals : List (String × Json) → String
  | [] => ""
  | [(key, value)] => quote key ++ ": " ++ dataLiteral value
  | (key, value) :: rest => quote key ++ ": " ++ dataLiteral value ++ ", " ++ memberLiterals rest

end

end ManifestTree.Source
