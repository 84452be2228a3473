/-!
# Names of node types

A node type is known by one globally unique text. Its short name is what stands after the last dot.
-/

namespace ManifestTree

/-- The unique name of a node type. -/
structure TypeName where
  text : String
  deriving DecidableEq, Repr, Inhabited

namespace TypeName

/-- The part after the last dot, or the whole name when it has none. -/
def short (name : TypeName) : String :=
  String.ofList ((name.text.toList.reverse.takeWhile (· ≠ '.')).reverse)

/-- Names in ascending order of their code points, each once: insertion into such a list. -/
def insertSorted (name : TypeName) : List TypeName → List TypeName
  | [] => [name]
  | other :: rest =>
    if name = other then other :: rest
    else if name.text < other.text then name :: other :: rest
    else other :: insertSorted name rest

def sorted (names : List TypeName) : List TypeName :=
  names.foldl (fun done name ↦ insertSorted name done) []

end TypeName
end ManifestTree
