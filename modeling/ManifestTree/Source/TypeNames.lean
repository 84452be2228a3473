import ManifestTree.Association
import ManifestTree.Source.Literal
import ManifestTree.Text.Words
import ManifestTree.TypeIndex

/-!
# How generated source names types

A type whose module is known is named by a constant: its short name in upper case. The first type in
ascending order gets the constant and it is imported from its module; every other type is written as
a string literal with its full name.
-/

namespace ManifestTree.Source

/-- The expression of each type and the constants to import from each module. -/
structure TypeNames where
  expressions : Association TypeName String
  /-- Modules in ascending order, each with its constants in ascending order. -/
  imports : List (String × List String)
  constants : List String
  deriving Inhabited

namespace TypeNames

def empty : TypeNames := ⟨[], [], []⟩

/-- A text put at its place in an ascending list without repetition. -/
def insertText (text : String) : List String → List String
  | [] => [text]
  | other :: rest =>
    if text = other then other :: rest
    else if text < other then text :: other :: rest
    else other :: insertText text rest

def insertImport (module constant : String) :
    List (String × List String) → List (String × List String)
  | [] => [(module, [constant])]
  | (other, constants) :: rest =>
    if module = other then (other, insertText constant constants) :: rest
    else if module < other then (module, [constant]) :: (other, constants) :: rest
    else (other, constants) :: insertImport module constant rest

def constantOf (name : TypeName) : String := Text.shoutyCase name.short

def add (index : TypeIndex) (names : TypeNames) (name : TypeName) : TypeNames :=
  let constant := constantOf name
  match index.moduleOf name with
  | some module =>
    if constant.isEmpty || names.constants.contains constant then
      { names with expressions := names.expressions ++ [(name, quote name.text)] }
    else
      ⟨names.expressions ++ [(name, constant)], insertImport module constant names.imports,
        names.constants ++ [constant]⟩
  | none => { names with expressions := names.expressions ++ [(name, quote name.text)] }

/-- The names of types, which are given in any order. -/
def ofTypes (index : TypeIndex) (types : List TypeName) : TypeNames :=
  (TypeName.sorted types).foldl (add index) empty

/-- The expression of a type; one that was not announced is written as a string literal. -/
def expression (names : TypeNames) (name : TypeName) : String :=
  (names.expressions.get? name).getD (quote name.text)

end TypeNames
end ManifestTree.Source
