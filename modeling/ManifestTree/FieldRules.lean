import ManifestTree.Failure

/-!
# Properties and fields

The author of an element writes properties, its document holds fields. Two rules of the element's
type lie between them: properties that begin with a marker are hoisted into a nested `metadata`
object, and the object at the spec key is opened so that its members become fields of their own.
`expand` turns properties into fields and refuses two properties for one field; `contract` turns
fields back into properties and sets aside the fields that would be hoisted if they were written as
properties.
-/

namespace ManifestTree

/-- The rules between the properties and the fields of one type. -/
structure FieldRules where
  /-- Properties that begin with the marker go into `metadata`. -/
  hoistsMetadata : Bool
  /-- The property whose object value is opened. -/
  specKey : Option String
  deriving DecidableEq, Repr, Inhabited

namespace FieldRules

def plain : FieldRules := ⟨false, none⟩

def defaultMarker : String := "@"

def metadataKey : String := "metadata"

def afterMarker? (marker key : String) : Option String :=
  if marker.toList.isPrefixOf key.toList then
    some (String.ofList (key.toList.drop marker.toList.length))
  else none

/-- Hoisting needs the rule and a marker that is not empty. -/
def hoistsWith (rules : FieldRules) (marker : String) : Bool :=
  rules.hoistsMetadata && !marker.isEmpty

/-- The key inside `metadata` of a property that is hoisted. -/
def hoisted? (rules : FieldRules) (marker key : String) : Option String :=
  if rules.hoistsWith marker then afterMarker? marker key else none

/-- The members that a property at the spec key opens into. -/
def opened? (rules : FieldRules) (key : String) (value : Json) : Option Members :=
  match value with
  | .object members => if rules.specKey = some key then some members else none
  | _ => none

/-- A member appended under a key that is still free. -/
def insertNew (members : Members) (key : String) (value : Json) : Except Failure Members :=
  if members.has key then .error (.occupied (FieldPath.ofKeys [key]))
  else .ok (members ++ [(key, value)])

/-- Several members appended under keys that are still free. -/
def insertAllNew (members : Members) : List (String × Json) → Except Failure Members
  | [] => .ok members
  | (key, value) :: rest => do insertAllNew (← insertNew members key value) rest

/-- The hoisted members and the fields, gathered from the properties in order. -/
def distribute (rules : FieldRules) (marker : String) (metadata fields : Members) :
    List (String × Json) → Except Failure (Members × Members)
  | [] => .ok (metadata, fields)
  | (key, value) :: rest =>
    match rules.hoisted? marker key with
    | some inner => do distribute rules marker (← insertNew metadata inner value) fields rest
    | none =>
      match rules.opened? key value with
      | some members => do distribute rules marker metadata (← insertAllNew fields members) rest
      | none => do distribute rules marker metadata (← insertNew fields key value) rest

/-- The fields that properties stand for, `metadata` first when anything was hoisted. -/
def expand (rules : FieldRules) (marker : String) (props : Members) : Except Failure Members := do
  let (metadata, fields) ← distribute rules marker [] [] props
  if metadata.isEmpty then pure fields
  else insertAllNew [(metadataKey, .object metadata)] fields

/-- Fields turned back into properties. -/
structure Contracted where
  /-- Properties that expand into the same fields. -/
  props : Members
  /-- Fields that begin with the marker, to be written at their own key. -/
  verbatim : Members
  deriving Inhabited

/-- The members that a flattened `metadata` field gives back. -/
def flattened? (rules : FieldRules) (marker key : String) (value : Json) : Option Members :=
  match value with
  | .object members =>
    if rules.hoistsWith marker && key == metadataKey && !members.isEmpty then some members else none
  | _ => none

/-- The fields sorted into properties, verbatim fields and the rest. -/
def sort (rules : FieldRules) (marker : String) (props verbatim rest : Members) :
    List (String × Json) → Members × Members × Members
  | [] => (props, verbatim, rest)
  | (key, value) :: more =>
    if (rules.hoisted? marker key).isSome then
      sort rules marker props (verbatim.insert key value) rest more
    else
      match rules.flattened? marker key value with
      | some members =>
        let marked := members.map fun (name, inner) ↦ (marker ++ name, inner)
        sort rules marker (Members.extend props marked) verbatim rest more
      | none => sort rules marker props verbatim (rest.insert key value) more

/-- The properties that stand for fields, and the fields that no property can stand for. -/
def contract (rules : FieldRules) (marker : String) (fields : Members) : Contracted :=
  let (props, verbatim, rest) := sort rules marker [] [] [] fields
  match rules.specKey with
  | some key =>
    if rest.isEmpty then ⟨props, verbatim⟩ else ⟨props.insert key (.object rest), verbatim⟩
  | none => ⟨Members.extend props rest, verbatim⟩

end FieldRules
end ManifestTree
