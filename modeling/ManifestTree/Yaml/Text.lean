import ManifestTree.Yaml.Presentation

/-!
# The text of a document stream

Every document is written in block form with two blanks per level; the items of a sequence in a
mapping stand at the mapping's own indentation. A key that does not fit one line stands behind a
question mark.
-/

namespace ManifestTree.Yaml

open Presentation

/-- Entries of a block, the ones after the first indented; every entry ends with its line. -/
def block (indent : Nat) (entries : List String) : String := (blanks indent).intercalate entries

/-- The text of a value without content of its own, up to the start of the next line. -/
def leafText (indent : Nat) : Json → String
  | .null => "null\n"
  | .bool value => Json.boolText value ++ "\n"
  | .number value => Json.numberText Decimal.streamLayout value ++ "\n"
  | .string text => lines indent text
  | .array _ => "[]\n"
  | .object _ => "\x7b\x7d\n"

mutual

/-- The text of a value whose content starts at a column, up to the start of the next line. -/
def nodeText (indent : Nat) : Json → String
  | .array (item :: rest) => block indent (itemEntries indent (item :: rest))
  | .object (member :: rest) => block indent (memberEntries indent (member :: rest))
  | leaf => leafText indent leaf

def itemEntries (indent : Nat) : List Json → List String
  | [] => []
  | item :: rest => ("- " ++ nodeText (indent + 2) item) :: itemEntries indent rest

def memberEntries (indent : Nat) : List (String × Json) → List String
  | [] => []
  | (name, value) :: rest =>
    (if isSimpleKey name then key name ++ ":" ++ valueText indent value
      else "? " ++ lines (indent + 2) name ++ blanks indent ++ ": " ++ nodeText (indent + 2) value)
      :: memberEntries indent rest

/-- The text of a value behind the colon of a key on one line. -/
def valueText (indent : Nat) : Json → String
  | .array (item :: rest) =>
    "\n" ++ blanks indent ++ block indent (itemEntries indent (item :: rest))
  | .object (member :: rest) =>
    "\n" ++ blanks (indent + 2) ++ block (indent + 2) (memberEntries (indent + 2) (member :: rest))
  | leaf => " " ++ leafText (indent + 2) leaf

end

/-- The text of one document; a text of several lines is indented also here. -/
def documentText : Json → String
  | .string text => lines 2 text
  | value => nodeText 0 value

/-- The text of documents with three hyphens between them. -/
def text (documents : List Json) : String := "---\n".intercalate (documents.map documentText)

end ManifestTree.Yaml
