import ManifestTree.FieldPath
import ManifestTree.TypeName
import ManifestTree.Json.Basic

/-!
# Failures

Why composing, decomposing or building the relations went wrong, one constructor per cause, and the
wording of each. Failed requirements are reported as one batch that numbers them.
-/

namespace ManifestTree

/-- Whether a place takes one value or a list of them. -/
inductive Multiplicity where
  | many
  | single
  deriving DecidableEq, Repr, Inhabited

def Multiplicity.text : Multiplicity → String
  | .many => "an array"
  | .single => "a single value"

inductive Failure where
  | unplaceable (parent child : TypeName) (chain : List TypeName)
  /-- Several relations match, or one with another tag, and the tag selects none. -/
  | ambiguous (parent child : TypeName) (requested : Option String) (candidates : List String)
      (chain : List TypeName)
  | occupied (path : FieldPath)
  | mismatch (path : FieldPath) (expected : Multiplicity) (found : Kind)
  | invalidPath (path : String) (fault : PathFault)
  | violated (owner message : String)
  | requirements (failures : List Failure)
  | unsettled (count : Nat)
  | abandoned (label : String)
  | unrecognized (apiVersion kind : String)
  /-- A value stands where children are expected but has the wrong form. -/
  | retained (parent child : TypeName) (path : FieldPath) (expected : Multiplicity) (found : Kind)
  | duplicateRelation (parent child : TypeName) (label : String)
  deriving Repr, Inhabited

namespace Failure

def chainText (chain : List TypeName) : String :=
  if chain.isEmpty then "<document>" else " > ".intercalate (chain.map TypeName.text)

def requestText : Option String → String
  | some tag => "discriminator '" ++ tag ++ "'"
  | none => "a missing discriminator"

mutual

def message : Failure → String
  | unplaceable parent child chain =>
    "'" ++ child.text ++ "' cannot be placed under '" ++ parent.text ++ "' (in " ++ chainText chain
      ++ ")"
  | ambiguous parent child requested candidates chain =>
    "'" ++ child.text ++ "' has several placements under '" ++ parent.text ++ "' (in "
      ++ chainText chain ++ "); " ++ requestText requested ++ " does not select one of: "
      ++ ", ".intercalate candidates
  | occupied path => "path '" ++ path.text ++ "' is already occupied"
  | mismatch path expected found =>
    "expected " ++ expected.text ++ " at '" ++ path.text ++ "' but found " ++ found.text
  | invalidPath path fault => "invalid path '" ++ path ++ "': " ++ fault.text
  | violated owner message => owner ++ ": " ++ message
  | requirements failures => "deferred assertions failed:\n" ++ numbered 1 failures
  | unsettled count =>
    "composition did not settle: " ++ toString count ++ " node(s) still pending"
  | abandoned label => "deferred value '" ++ label ++ "' was abandoned before it resolved"
  | unrecognized apiVersion kind =>
    "unrecognised document type '" ++ kind ++ "' in '" ++ apiVersion ++ "'"
  | retained parent child path expected found =>
    "kept '" ++ path.text ++ "' on '" ++ parent.text ++ "' as a literal field: expected "
      ++ expected.text ++ " of '" ++ child.text ++ "', found " ++ found.text
  | duplicateRelation parent child label =>
    "duplicate relation for '" ++ child.text ++ "' under '" ++ parent.text
      ++ "' with discriminator '" ++ label ++ "'"

def numbered (count : Nat) : List Failure → String
  | [] => ""
  | [failure] => toString count ++ ": " ++ message failure
  | failure :: rest =>
    toString count ++ ": " ++ message failure ++ "\n" ++ numbered (count + 1) rest

end

/-- One failure that holds all of them, or nothing when there are none. -/
def batch? (failures : List Failure) : Option Failure :=
  if failures.isEmpty then none else some (requirements failures)

/-- The owners of the violated requirements among the failures. -/
def owners (failures : List Failure) : List String :=
  failures.filterMap fun failure ↦ match failure with
    | violated owner _ => some owner
    | _ => none

/-- The enclosing types that a placement failure reports. -/
def chain? : Failure → Option (List TypeName)
  | unplaceable _ _ chain => some chain
  | ambiguous _ _ _ _ chain => some chain
  | _ => none

/-- A placement failure with its enclosing types replaced; every other failure is unchanged. -/
def withChain (chain : List TypeName) : Failure → Failure
  | unplaceable parent child _ => unplaceable parent child chain
  | ambiguous parent child requested candidates _ =>
    ambiguous parent child requested candidates chain
  | other => other

def ofPathFault (path : String) (fault : PathFault) : Failure := invalidPath path fault

end Failure

/-- The path that a text denotes, a fault reported with the whole text. -/
def FieldPath.ofText (text : String) : Except Failure FieldPath :=
  (FieldPath.parse text).mapError (Failure.ofPathFault text)

end ManifestTree
