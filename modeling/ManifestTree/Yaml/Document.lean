import ManifestTree.Yaml.Grammar
import ManifestTree.Yaml.References
import ManifestTree.Yaml.Scalar
import ManifestTree.Yaml.Token.Lexer

/-!
# Documents of a stream as values

The values that the documents of a text denote. A key is the text of its node as it is written, and
a repeated key keeps its first place and its last value. Tags of local meaning are refused.
-/

namespace ManifestTree.Yaml

/-- The tag has a local meaning: an exclamation mark and UTF-8 octets. -/
def isLocalTag (tag : String) : Bool :=
  match tag.toList with
  | '!' :: octets => ByteArray.validateUTF8 ⟨(octets.map fun c ↦ UInt8.ofNat c.toNat).toArray⟩
  | _ => false

def Mark.isLocal {ρ : Type} (mark : Mark ρ) : Bool := mark.tag.any isLocalTag

namespace Tree

def key? : Tree Empty → Option String
  | text _ _ content => some content
  | _ => none

mutual

def value? : Tree Empty → Option Json
  | text mark style content =>
    if mark.isLocal then none
    else
      match mark.tag with
      | some tag => Scalar.tagged? tag content
      | none => if style = .plain then Scalar.value? content else some (.string content)
  | sequence mark items =>
    if mark.isLocal then none else (values? items).map .array
  | mapping mark members =>
    if mark.isLocal then none
    else (memberValues? members).map fun members ↦ .object (Members.extend [] members)
  | reference target => nomatch target

def values? : List (Tree Empty) → Option (List Json)
  | [] => some []
  | item :: rest => do
    let value ← item.value?
    let values ← values? rest
    pure (value :: values)

def memberValues? : List (Tree Empty × Tree Empty) → Option (List (String × Json))
  | [] => some []
  | (key, value) :: rest => do
    let key ← key.key?
    let value ← value.value?
    let members ← memberValues? rest
    pure ((key, value) :: members)

end

end Tree

/-- The documents of a text as nodes without references. -/
def trees? (text : String) : Option (List (Tree Empty)) := do
  let tokens ← tokens? text
  let documents ← Grammar.stream? tokens
  documents.mapM Tree.settled?

/-- The values of the documents of a text; documents that hold nothing are left out. -/
def documents? (text : String) : Option (List Json) := do
  let values ← (← trees? text).mapM Tree.value?
  pure (values.filter (·.kind != .null))

end ManifestTree.Yaml
