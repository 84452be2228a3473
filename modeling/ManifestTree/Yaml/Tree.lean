import ManifestTree.Yaml.Token

/-!
# Node trees of document streams

The nodes of a document: texts, sequences, mappings, and references to nodes elsewhere. `ρ` is what
a reference names: the word in the text, the number of an anchor, or nothing once all references
are replaced by what they refer to.
-/

namespace ManifestTree.Yaml

/-- What may stand in front of a node. -/
structure Mark (ρ : Type) where
  anchor : Option ρ
  tag : Option String
  deriving Inhabited

inductive Tree (ρ : Type) where
  | text (mark : Mark ρ) (style : Style) (text : String)
  | sequence (mark : Mark ρ) (items : List (Tree ρ))
  | mapping (mark : Mark ρ) (members : List (Tree ρ × Tree ρ))
  | reference (target : ρ)
  deriving Inhabited

namespace Tree

variable {ρ : Type}

def unmarked : Mark ρ := ⟨none, none⟩

/-- The node that a missing node stands for: a plain text without characters. -/
def empty : Tree ρ := text unmarked .plain ""

def anchor? : Tree ρ → Option ρ
  | text mark _ _ => mark.anchor
  | sequence mark _ => mark.anchor
  | mapping mark _ => mark.anchor
  | reference _ => none

mutual

/-- The nodes with an anchor inside a node and itself, in the order in which they begin. -/
def anchored (tree : Tree ρ) : List (ρ × Tree ρ) :=
  let self := match tree.anchor? with
    | some name => [(name, tree)]
    | none => []
  match tree with
  | sequence _ items => self ++ anchoredItems items
  | mapping _ members => self ++ anchoredMembers members
  | _ => self

def anchoredItems : List (Tree ρ) → List (ρ × Tree ρ)
  | [] => []
  | item :: rest => item.anchored ++ anchoredItems rest

def anchoredMembers : List (Tree ρ × Tree ρ) → List (ρ × Tree ρ)
  | [] => []
  | (key, value) :: rest => key.anchored ++ value.anchored ++ anchoredMembers rest

end

mutual

/-- How many events a node consists of: its texts, its references, and the two ends of its
collections. -/
def eventCount : Tree ρ → Nat
  | text .. => 1
  | sequence _ items => 2 + eventCountItems items
  | mapping _ members => 2 + eventCountMembers members
  | reference _ => 1

def eventCountItems : List (Tree ρ) → Nat
  | [] => 0
  | item :: rest => item.eventCount + eventCountItems rest

def eventCountMembers : List (Tree ρ × Tree ρ) → Nat
  | [] => 0
  | (key, value) :: rest => key.eventCount + value.eventCount + eventCountMembers rest

end

end Tree
end ManifestTree.Yaml
