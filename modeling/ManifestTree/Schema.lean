import ManifestTree.FieldRules
import ManifestTree.Relations
import ManifestTree.TypeIndex

/-!
# Schemas

Everything that composing and decomposing need to know about node types: the relations between
them, the field rules of each, and how the type of a document is found.
-/

namespace ManifestTree

structure Schema where
  relations : Relations
  /-- The field rules of each type that declares some. -/
  rules : Association TypeName FieldRules
  types : TypeIndex
  deriving Inhabited

namespace Schema

/-- The field rules of a type, plain ones where it declares none. -/
def rulesOf (schema : Schema) (name : TypeName) : FieldRules :=
  (schema.rules.get? name).getD FieldRules.plain

end Schema
end ManifestTree
