import ManifestTree.Document.Access
import ManifestTree.Outline
import ManifestTree.Schema

/-!
# Decomposing documents into trees

An object of a known type becomes an element. The relations under its type are visited in order of
declaration; what stands at a relation's path is taken out and becomes children, and what is left
becomes properties, except for the fields that no property can stand for, which become literals. A
value of the wrong form at a relation's path stays where it is and is reported. Decomposing never
fails: a document of unknown type is carried as it is.
-/

namespace ManifestTree.Decompose

structure Findings where
  /-- The types met, in order of meeting. -/
  types : List TypeName
  warnings : List Failure
  deriving Inhabited

def Findings.empty : Findings := ⟨[], []⟩

def Findings.append (x y : Findings) : Findings :=
  ⟨x.types ++ y.types, x.warnings ++ y.warnings⟩

structure Decomposition where
  root : Outline
  /-- The types used, ascending, without the one of documents carried as they are. -/
  types : List TypeName
  warnings : List Failure
  deriving Inhabited

/-- What is wrong with a value at a relation's path, as the kind found instead. -/
def problem? (relation : Relation) (found : Json) : Option Kind :=
  match relation.isMany, found with
  | true, .array items => if items.all Json.isObject then none else some .mixedArray
  | false, .object _ => none
  | _, other => some other.kind

def retainedAs (parent : TypeName) (relation : Relation) (found : Kind) : Failure :=
  .retained parent relation.child relation.path relation.multiplicity found

/-- What a relation finds in a value that is being decomposed. -/
inductive Visit where
  | nothing
  | kept (warning : Failure)
  /-- The objects taken out, and what is left of the value. -/
  | taken (objects : List Members) (left : Json)

def objectsOf : Json → List Members
  | .array items => items.filterMap fun item ↦ match item with
      | .object members => some members
      | _ => none
  | .object members => [members]
  | _ => []

/-- A relation's visit to a value of its parent type. -/
def visit (relation : Relation) (value : Json) : Visit :=
  match value.get? relation.path with
  | none => .nothing
  | some found =>
    if found.isVacant then .nothing
    else
      match problem? relation found with
      | some kind => .kept (retainedAs relation.parent relation kind)
      | none =>
        match value.take relation.path with
        | none => .nothing
        | some (taken, left) => .taken (objectsOf taken) left

/-- The element of what is left of an object once its children are taken out. -/
def finish (schema : Schema) (marker : String) (type : TypeName) (left : Json)
    (children : List Outline) : Outline :=
  let contracted := (schema.rulesOf type).contract marker left.members
  let literals := contracted.verbatim.map fun (name, value) ↦
    Outline.literal (FieldPath.ofKeys [name]) (some value) false []
  .element type contracted.props none (children ++ literals)

/-- How objects below the one at hand are decomposed. -/
abbrev Nested := TypeName → Members → Outline × Findings

/-- The elements of several objects of one type, under one tag. -/
def elements (nested : Nested) (type : TypeName) (tag : Option String) :
    List Members → List Outline × Findings
  | [] => ([], Findings.empty)
  | members :: rest =>
    let (child, met) := nested type members
    let (children, findings) := elements nested type tag rest
    (child.withTag tag :: children, Findings.append met findings)

/-- The children that relations take out of a value one after another, and what is left. -/
def visitAll (relations : Relations) (nested : Nested) (value : Json) :
    List Relation → List Outline × Json × Findings
  | [] => ([], value, Findings.empty)
  | relation :: rest =>
    match visit relation value with
    | .nothing => visitAll relations nested value rest
    | .kept warning =>
      let (children, left, findings) := visitAll relations nested value rest
      (children, left, Findings.append ⟨[], [warning]⟩ findings)
    | .taken objects left =>
      let (front, met) := elements nested relation.child (relations.selector relation) objects
      let (children, left, findings) := visitAll relations nested left rest
      (front ++ children, left, Findings.append met findings)

/-- The element of an object of a type whose collections nest at most `depth` deep. -/
def element (schema : Schema) (marker : String) : Nat → Nested
  | 0, type, members => (finish schema marker type (.object members) [], ⟨[type], []⟩)
  | depth + 1, type, members =>
    let (children, left, findings) :=
      visitAll schema.relations (element schema marker depth) (.object members)
        (schema.relations.under type)
    (finish schema marker type left children, Findings.append ⟨[type], []⟩ findings)

/-- A document as an instance of a type; what is no object is carried as it is. -/
def decompose (schema : Schema) (marker : String) (type : TypeName) (document : Json) :
    Decomposition :=
  match document with
  | .object members =>
    let (root, findings) := element schema marker (Json.object members).height type members
    ⟨root, TypeName.sorted findings.types, findings.warnings⟩
  | other => ⟨Outline.passthrough other, [], []⟩

/-- A document of the type that its fields name; a document of unknown type is carried as it is. -/
def decomposeDocument (schema : Schema) (marker : String) (document : Json) : Decomposition :=
  match schema.types.identify document with
  | .ok type => decompose schema marker type document
  | .error unknown => ⟨Outline.passthrough document, [], [unknown]⟩

end ManifestTree.Decompose
