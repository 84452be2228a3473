import ManifestTree.Node

/-!
# Outlines: trees without code

An outline is a tree that data files can hold: fragments, elements and literals. Every outline is a
node; of a node only the parts without code have an outline.
-/

namespace ManifestTree

/-- A tree without transforms and components. -/
inductive Outline where
  | fragment (children : List Outline)
  | element (type : TypeName) (props : Members) (tag : Option String) (children : List Outline)
  /-- A value written at a path, or appended to the array there. -/
  | literal (path : FieldPath) (value : Option Json) (isItem : Bool) (children : List Outline)
  deriving Repr, Inhabited

namespace Outline

/-- The element that carries a document of unknown type as it is; what is no object stands under
`value`. -/
def passthrough (document : Json) : Outline :=
  match document with
  | .object members => .element TypeName.passthrough members none []
  | other => .element TypeName.passthrough [("value", other)] none []

/-- The outline with the tag of an element replaced. -/
def withTag (tag : Option String) : Outline → Outline
  | element type props _ children => element type props tag children
  | other => other

mutual

def toNode : Outline → Node
  | fragment children => .fragment (toNodes children)
  | element type props tag children => .element type props tag (toNodes children)
  | literal path value isItem children => .literal path value isItem (toNodes children)

def toNodes : List Outline → List Node
  | [] => []
  | outline :: rest => outline.toNode :: toNodes rest

end

mutual

/-- The outline of a node, unless the node itself is a transform or a component. -/
def ofNode? : Node → Option Outline
  | .fragment children => some (fragment (ofNodes children))
  | .element type props tag children => some (element type props tag (ofNodes children))
  | .literal path value isItem children => some (literal path value isItem (ofNodes children))
  | .transform _ _ => none
  | .component _ _ => none

def ofNodes : List Node → List Outline
  | [] => []
  | node :: rest =>
    match ofNode? node with
    | some outline => outline :: ofNodes rest
    | none => ofNodes rest

end

end Outline
end ManifestTree
