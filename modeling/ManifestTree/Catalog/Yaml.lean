import ManifestTree.Catalog.Decode
import ManifestTree.Yaml.Document

/-!
# Catalogs in document streams

A stream of one document may hold a catalog. A text stands for itself whatever it looks like, and
an empty plain text for an empty record or list.
-/

namespace ManifestTree.Catalog

def isBlankNode : Yaml.Tree Empty → Bool
  | .text _ .plain "" => true
  | _ => false

def namedFields? (members : List (Yaml.Tree Empty × Yaml.Tree Empty)) :
    Option (List (String × Yaml.Tree Empty)) :=
  members.mapM fun (key, value) ↦ key.key?.map fun name ↦ (name, value)

/-- The text of a field that may be missing: the plain words for nothing leave it out. -/
def textUnlessNull? : Yaml.Tree Empty → Option (Option String)
  | .text mark .plain content =>
    match mark.tag with
    | none =>
      some (if content.isEmpty || Yaml.Scalar.isNullWord content then none else some content)
    | some tag =>
      if tag = Yaml.Scalar.coreTag "null" then
        if Yaml.Scalar.isNullWord content then some none else none
      else some (some content)
  | .text _ _ content => some (some content)
  | _ => none

/-- A truth value: a plain text, or a block of kept lines with the tag of truth values. -/
def flag? : Yaml.Tree Empty → Option Bool
  | .text mark style content =>
    if style = .plain ∨ (style = .literal ∧ mark.tag = some (Yaml.Scalar.coreTag "bool")) then
      Yaml.Scalar.truth? content
    else none
  | _ => none

def yamlDialect : Dialect (Yaml.Tree Empty) where
  record
    | .mapping _ members => (namedFields? members).map .named
    | node => if isBlankNode node then some (.named []) else none
  list
    | .sequence _ items => some items
    | node => if isBlankNode node then some [] else none
  text
    | .text _ _ content => some content
    | _ => none
  optionalText := textUnlessNull?
  flag := flag?

/-- The catalog that a stream of at most one document holds. -/
def ofYaml? (text : String) : Option Catalog := do
  match ← Yaml.trees? text with
  | [] => yamlDialect.catalog? Yaml.Tree.empty
  | [tree] => yamlDialect.catalog? tree
  | _ => none

end ManifestTree.Catalog
