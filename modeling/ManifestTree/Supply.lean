import ManifestTree.Json.Basic

/-!
# Deferred values

A tree may depend on values that arrive later. Each is known by a handle and kept by the supplies:
what has been given so far, and whether anybody can still give it. A value once given stays, also
when its giver withdraws; giving again replaces it.
-/

namespace ManifestTree

/-- The name under which a deferred value is awaited. -/
structure Handle where
  id : String
  label : String
  deriving DecidableEq, Repr, Inhabited

/-- The state of one deferred value. -/
structure Supply where
  value : Option Json
  isOpen : Bool
  deriving Repr, Inhabited

abbrev Supplies := Association Handle Supply

/-- A change to the supplies from outside. -/
inductive SupplyAction where
  | give (handle : Handle) (value : Json)
  | withdraw (handle : Handle)
  deriving Repr, Inhabited

inductive SupplyOutcome where
  | given
  | withdrawn
  | gone
  deriving DecidableEq, Repr, Inhabited

namespace Supplies

def find? (supplies : Supplies) (id : String) : Option Handle :=
  (supplies.map Prod.fst).find? fun handle ↦ handle.id == id

def value? (supplies : Supplies) (handle : Handle) : Option Json :=
  match supplies.get? handle with
  | some supply => supply.value
  | none => none

def isOpen (supplies : Supplies) (handle : Handle) : Bool :=
  match supplies.get? handle with
  | some supply => supply.isOpen
  | none => false

/-- The supplies after an action, and what came of it. -/
def apply (supplies : Supplies) : SupplyAction → SupplyOutcome × Supplies
  | .give handle value =>
    if supplies.isOpen handle then (.given, supplies.insert handle ⟨some value, true⟩)
    else (.gone, supplies)
  | .withdraw handle =>
    if supplies.isOpen handle then
      (.withdrawn, supplies.insert handle ⟨supplies.value? handle, false⟩)
    else (.gone, supplies)

/-- The supplies after several actions, one after another, and what came of each. -/
def applyAll (supplies : Supplies) : List SupplyAction → List SupplyOutcome × Supplies
  | [] => ([], supplies)
  | action :: rest =>
    let (outcome, supplies) := supplies.apply action
    let (outcomes, supplies) := applyAll supplies rest
    (outcome :: outcomes, supplies)

/-- The handles without a value from the first such handle on. -/
def unready (supplies : Supplies) (handles : List Handle) : List Handle :=
  handles.dropWhile fun handle ↦ (supplies.value? handle).isSome

end Supplies
end ManifestTree
