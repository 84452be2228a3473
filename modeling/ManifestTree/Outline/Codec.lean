import ManifestTree.Failure
import ManifestTree.Outline

/-!
# Outlines as data

An outline is an object with a `node` field that says what it is and the fields of that form beside
it; other fields are ignored, missing ones take their defaults, and a value that is explicitly null
differs from a missing one. The fields may also be listed in their fixed order behind the form.
Below the top a form may be given by its number.
-/

namespace ManifestTree.Outline

inductive Form where
  | fragment
  | element
  | literal
  deriving DecidableEq, Repr

def Form.word : Form → String
  | .fragment => "root"
  | .element => "element"
  | .literal => "literal"

def Form.ofWord? (word : String) : Option Form :=
  if word = "root" then some .fragment
  else if word = "element" then some .element
  else if word = "literal" then some .literal
  else none

/-- The form given by a word or, below the top, by its number. -/
def Form.ofJson? (nested : Bool) : Json → Option Form
  | .string word => Form.ofWord? word
  | .number (.integer 0) => if nested then some .fragment else none
  | .number (.integer 1) => if nested then some .element else none
  | .number (.integer 2) => if nested then some .literal else none
  | _ => none

def text? : Option Json → Option String
  | some (.string text) => some text
  | _ => none

/-- A field that holds a text or nothing; null counts as nothing. -/
def optionalText? : Option Json → Option (Option String)
  | none => some none
  | some .null => some none
  | some (.string text) => some (some text)
  | _ => none

/-- A field that holds a truth value, false where it is missing. -/
def flag? : Option Json → Option Bool
  | none => some false
  | some (.bool value) => some value
  | _ => none

/-- A field that holds an object, the empty one where it is missing. -/
def members? : Option Json → Option Members
  | none => some []
  | some (.object members) => some members
  | _ => none

def path? (field : Option Json) : Option FieldPath := do
  (FieldPath.parse (← text? field)).toOption

def elementOf? (type props tag : Option Json) (children : Option (List Outline)) :
    Option Outline := do
  let type ← text? type
  let props ← members? props
  let tag ← optionalText? tag
  let children ← children
  pure (.element ⟨type⟩ props tag children)

def literalOf? (path value isItem : Option Json) (children : Option (List Outline)) :
    Option Outline := do
  let path ← path? path
  let isItem ← flag? isItem
  let children ← children
  pure (.literal path value isItem children)

def ofFields? (form : Form) (members : Members) (children : Option (List Outline)) :
    Option Outline :=
  match form with
  | .fragment => children.map .fragment
  | .element =>
    elementOf? (members.get? "type") (members.get? "props") (members.get? "discriminator") children
  | .literal =>
    literalOf? (members.get? "path") (members.get? "value") (members.get? "arrayItem") children

def Form.fieldCount : Form → Nat
  | .fragment => 1
  | .element => 4
  | .literal => 4

mutual

def decode? (nested : Bool) : Json → Option Outline
  | .object members => do
    let form ← Form.ofJson? nested (← Members.get? members "node")
    ofFields? form members (childrenOfMembers? members)
  | .array (tag :: items) => do
    let form ← Form.ofJson? nested tag
    if items.length > form.fieldCount then none
    else
      let children := childrenAt? (form.fieldCount - 1) items
      match form with
      | .fragment => children.map .fragment
      | .element => elementOf? items[0]? items[1]? items[2]? children
      | .literal => literalOf? items[0]? items[1]? items[2]? children
  | _ => none

/-- The children among named fields, none where the field is missing. -/
def childrenOfMembers? : List (String × Json) → Option (List Outline)
  | [] => some []
  | (key, value) :: rest => if key = "children" then decodeList? value else childrenOfMembers? rest

/-- The children among listed fields, none where the list ends before them. -/
def childrenAt? : Nat → List Json → Option (List Outline)
  | _, [] => some []
  | 0, value :: _ => decodeList? value
  | position + 1, _ :: rest => childrenAt? position rest

def decodeList? : Json → Option (List Outline)
  | .array items => decodeItems? items
  | _ => none

def decodeItems? : List Json → Option (List Outline)
  | [] => some []
  | item :: rest => do
    let outline ← decode? true item
    let outlines ← decodeItems? rest
    pure (outline :: outlines)

end

/-- The outline that the data of a whole tree denotes. -/
def ofJson? (value : Json) : Option Outline := decode? false value

def optionalField (name : String) : Option Json → Members
  | some value => [(name, value)]
  | none => []

mutual

def toJson : Outline → Json
  | fragment children =>
    .object [("node", .string Form.fragment.word), ("children", .array (toJsons children))]
  | element type props tag children =>
    .object ([("node", .string Form.element.word), ("type", .string type.text),
      ("props", .object props)] ++ optionalField "discriminator" (tag.map .string)
      ++ [("children", .array (toJsons children))])
  | literal path value isItem children =>
    .object ([("node", .string Form.literal.word), ("path", .string path.text)]
      ++ optionalField "value" value
      ++ [("arrayItem", .bool isItem), ("children", .array (toJsons children))])

def toJsons : List Outline → List Json
  | [] => []
  | outline :: rest => outline.toJson :: toJsons rest

end

end ManifestTree.Outline
