import ManifestTree.FieldPath
import ManifestTree.Supply
import ManifestTree.TypeName

/-!
# Trees

A tree is written from fragments, elements, literals, transforms and components. A component is a
script: it may read deferred values, state requirements on the settled outcome, and in the end yield
a tree or give up for this pass. A script sees a missing value as such and may go on without it.
-/

namespace ManifestTree

mutual

inductive Node where
  /-- Several nodes at one place; at the top of a tree, one document each. -/
  | fragment (children : List Node)
  | element (type : TypeName) (props : Members) (tag : Option String) (children : List Node)
  /-- A value written at a path, or appended to the array there; without a value the path is only
  opened. -/
  | literal (path : FieldPath) (value : Option Json) (isItem : Bool) (children : List Node)
  /-- Nodes composed aside, rewritten by a function and laid back. -/
  | transform (rewrite : Json → Json) (children : List Node)
  | component (name : String) (script : Script)

/-- What a component does in one pass. -/
inductive Script where
  | yield (node : Node)
  | suspend
  /-- Reads a deferred value and goes on with it, or with nothing where it is missing. -/
  | read (handle : Handle) (next : Option Json → Script)
  /-- States a condition on the supplies that must hold once everything has settled. -/
  | require (message : String) (check : Supplies → Bool) (next : Script)

end

instance : Inhabited Node := ⟨.fragment []⟩

instance : Inhabited Script := ⟨.suspend⟩

/-- The script that reads a value and gives up for this pass where it is missing. -/
def Script.await (handle : Handle) (next : Json → Script) : Script :=
  .read handle fun value ↦ match value with
    | some value => next value
    | none => .suspend

/-- What a component is told when a value that it reads is missing. -/
def Script.suspendedText : String := "waiting on a deferred value"

/-- The type of elements that carry a document of unknown type as it is. -/
def TypeName.passthrough : TypeName := ⟨"docweave.Passthrough"⟩

end ManifestTree
