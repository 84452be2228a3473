import ManifestTree.Association
import ManifestTree.Yaml.Tree

/-!
# References

Replacing the references of a document by the nodes they name. Anchors are numbered in order of
their nodes: a node gets the count of names met before it, so that a name used again passes its
count on to the next new name. A reference means the number of its name at that place, and a number
means the last node that has it, wherever that node stands. At most 128 collections may lie inside
one another, and at most a hundred references may be followed per event of the document.
-/

namespace ManifestTree.Yaml

abbrev AnchorNumbers := Association String Nat

namespace AnchorNumbers

/-- The anchor of a node numbered, and the names afterwards. -/
def enter (numbers : AnchorNumbers) (mark : Mark String) : Mark Nat × AnchorNumbers :=
  match mark.anchor with
  | some name =>
    (⟨some numbers.length, mark.tag⟩, Association.insert name numbers.length numbers)
  | none => (⟨none, mark.tag⟩, numbers)

end AnchorNumbers

namespace Tree

mutual

/-- A node with its anchors and references numbered, unless a reference names no anchor before
it. -/
def numbered? (numbers : AnchorNumbers) : Tree String → Option (Tree Nat × AnchorNumbers)
  | text mark style content =>
    let (mark, numbers) := numbers.enter mark
    some (text mark style content, numbers)
  | sequence mark items =>
    let (mark, numbers) := numbers.enter mark
    (numberedItems? numbers items).map fun (items, numbers) ↦ (sequence mark items, numbers)
  | mapping mark members =>
    let (mark, numbers) := numbers.enter mark
    (numberedMembers? numbers members).map fun (members, numbers) ↦
      (mapping mark members, numbers)
  | reference name => (Association.get? name numbers).map fun number ↦ (reference number, numbers)

def numberedItems? (numbers : AnchorNumbers) :
    List (Tree String) → Option (List (Tree Nat) × AnchorNumbers)
  | [] => some ([], numbers)
  | item :: rest => do
    let (item, numbers) ← item.numbered? numbers
    let (rest, numbers) ← numberedItems? numbers rest
    pure (item :: rest, numbers)

def numberedMembers? (numbers : AnchorNumbers) :
    List (Tree String × Tree String) → Option (List (Tree Nat × Tree Nat) × AnchorNumbers)
  | [] => some ([], numbers)
  | (key, value) :: rest => do
    let (key, numbers) ← key.numbered? numbers
    let (value, numbers) ← value.numbered? numbers
    let (rest, numbers) ← numberedMembers? numbers rest
    pure ((key, value) :: rest, numbers)

end

/-- A node without references, and the count of references followed. -/
abbrev Expansion := Tree Empty × Nat

/-- How a node inside another one is expanded, given the count of references followed so far. -/
abbrev Expander := Tree Nat → Nat → Option Expansion

def expandItems? (expand : Expander) : List (Tree Nat) → Nat → Option (List (Tree Empty) × Nat)
  | [], followed => some ([], followed)
  | item :: rest, followed => do
    let (item, followed) ← expand item followed
    let (rest, followed) ← expandItems? expand rest followed
    pure (item :: rest, followed)

def expandMembers? (expand : Expander) :
    List (Tree Nat × Tree Nat) → Nat → Option (List (Tree Empty × Tree Empty) × Nat)
  | [], followed => some ([], followed)
  | (key, value) :: rest, followed => do
    let (key, followed) ← expand key followed
    let (value, followed) ← expand value followed
    let (rest, followed) ← expandMembers? expand rest followed
    pure ((key, value) :: rest, followed)

def settledMark (mark : Mark Nat) : Mark Empty := ⟨none, mark.tag⟩

/-- A node with its references replaced, where `depth` more collections may lie inside one another
and `limit` references may be followed in all. -/
def expand? (targets : List (Nat × Tree Nat)) (limit : Nat) : Nat → Nat → Expander
  | 0, _, _, _ => none
  | fuel + 1, depth, tree, followed =>
    match tree, depth with
    | text mark style content, _ => some (text (settledMark mark) style content, followed)
    | reference number, depth =>
      if followed < limit then do
        let target ← targets.lookup number
        expand? targets limit fuel depth target (followed + 1)
      else none
    | sequence mark items, depth + 1 => do
      let (items, followed) ← expandItems? (expand? targets limit fuel depth) items followed
      pure (sequence (settledMark mark) items, followed)
    | mapping mark members, depth + 1 => do
      let (members, followed) ← expandMembers? (expand? targets limit fuel depth) members followed
      pure (mapping (settledMark mark) members, followed)
    | _, 0 => none

/-- How many collections may lie inside one another. -/
def depthLimit : Nat := 128

def settled? (tree : Tree String) : Option (Tree Empty) := do
  let (tree, _) ← tree.numbered? []
  let targets := tree.anchored.reverse
  let (tree, _) ← expand? targets (100 * tree.eventCount) (2 * depthLimit + 2) depthLimit tree 0
  pure tree

end Tree
end ManifestTree.Yaml
