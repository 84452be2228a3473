import ManifestTree.Schema

/-!
# Catalogs

A catalog declares node types and the relations between them. Compiling it gives a schema: a type
that names both its API version and its kind is found by them, a later declaration replacing an
earlier one.
-/

namespace ManifestTree

structure TypeDeclaration where
  id : TypeName
  apiVersion : Option String
  kind : Option String
  module : Option String
  hoistMetadata : Bool
  specKey : Option String
  deriving DecidableEq, Repr, Inhabited

/-- The declaration of a relation. -/
structure RelationDeclaration where
  child : TypeName
  parent : TypeName
  path : FieldPath
  array : Bool
  discriminator : Option String
  deriving DecidableEq, Repr, Inhabited

structure Catalog where
  types : List TypeDeclaration
  /-- The relations, the ones to visit first in front. -/
  relations : List RelationDeclaration
  deriving DecidableEq, Repr, Inhabited

namespace Catalog

def optionalText (name : String) : Option String → Members
  | some text => [(name, .string text)]
  | none => []

def typeData (type : TypeDeclaration) : Json :=
  .object ([("id", .string type.id.text)] ++ optionalText "apiVersion" type.apiVersion
    ++ optionalText "kind" type.kind ++ optionalText "module" type.module
    ++ [("hoistMetadata", .bool type.hoistMetadata)] ++ optionalText "specKey" type.specKey)

def relationData (relation : RelationDeclaration) : Json :=
  .object ([("child", .string relation.child.text), ("parent", .string relation.parent.text),
    ("path", .string relation.path.text), ("array", .bool relation.array)]
    ++ optionalText "discriminator" relation.discriminator)

def toJson (catalog : Catalog) : Json :=
  .object [("types", .array (catalog.types.map typeData)),
    ("relations", .array (catalog.relations.map relationData))]

def relationOf (relation : RelationDeclaration) : Relation :=
  ⟨relation.child, relation.parent, relation.path, relation.array, relation.discriminator⟩

def enter (index : TypeIndex) (type : TypeDeclaration) : TypeIndex :=
  let index := match type.module with
    | some module => index.setModule type.id module
    | none => index
  match type.apiVersion, type.kind with
  | some apiVersion, some kind => index.register apiVersion kind type.id
  | _, _ => index

def rulesOf (types : List TypeDeclaration) : Association TypeName FieldRules :=
  types.foldl (fun rules type ↦ rules.insert type.id ⟨type.hoistMetadata, type.specKey⟩) []

/-- The schema of a catalog, unless two relations of one pair have the same label. -/
def compile (catalog : Catalog) : Except Failure Schema := do
  let relations ← Relations.ofList (catalog.relations.map relationOf)
  pure ⟨relations, rulesOf catalog.types, catalog.types.foldl enter TypeIndex.empty⟩

end Catalog
end ManifestTree
