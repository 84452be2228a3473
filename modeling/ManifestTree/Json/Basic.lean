import ManifestTree.Association
import ManifestTree.Number.Decimal

/-!
# Data values

A document is a value built from null, booleans, numbers, strings, arrays and objects. An object is
the list of its members in order: inserting a new key appends it, inserting a present key keeps its
place, and erasing a key closes the gap. `Json.WellFormed` says that no object holds a key twice;
`collapse` reaches that form from any value, a repeated key keeping its first place and last value.
-/

namespace ManifestTree

/-- A number: an integer in the signed or unsigned 64-bit range, or a finite binary64 number. -/
inductive Number where
  | integer (value : Int)
  /-- A number with a fraction, an exponent or a magnitude beyond 64 bits. -/
  | real (value : Binary64)
  deriving DecidableEq, Repr, Inhabited

inductive Json where
  | null
  | bool (value : Bool)
  | number (value : Number)
  | string (value : String)
  | array (items : List Json)
  | object (members : List (String × Json))
  deriving Repr, Inhabited

abbrev Members := Association String Json

namespace Members

def get? (members : Members) (key : String) : Option Json := Association.get? key members

def has (members : Members) (key : String) : Bool := (members.get? key).isSome

/-- The value at a key: a present key keeps its place, a new one comes last. -/
def insert (members : Members) (key : String) (value : Json) : Members :=
  Association.insert key value members

def erase (members : Members) (key : String) : Members := Association.erase key members

def keys (members : Members) : List String := members.map Prod.fst

/-- Every member of the second list inserted into the first, in order. -/
def extend (members : Members) : Members → Members
  | [] => members
  | (key, value) :: rest => extend (members.insert key value) rest

end Members

/-- What sort of value something is. -/
inductive Kind where
  | null
  | boolean
  | number
  | string
  | array
  | object
  | mixedArray
  deriving DecidableEq, Repr, Inhabited

def Kind.text : Kind → String
  | .null => "null"
  | .boolean => "a boolean"
  | .number => "a number"
  | .string => "a string"
  | .array => "an array"
  | .object => "an object"
  | .mixedArray => "an array holding non-object items"

namespace Json

def kind : Json → Kind
  | null => .null
  | bool _ => .boolean
  | number _ => .number
  | string _ => .string
  | array _ => .array
  | object _ => .object

/-- Null, the empty array and the empty object hold nothing. -/
def isVacant : Json → Bool
  | null => true
  | array items => items.isEmpty
  | object members => members.isEmpty
  | _ => false

def isObject : Json → Bool
  | object _ => true
  | _ => false

/-- The members of an object; every other value has none. -/
def members : Json → Members
  | object members => members
  | _ => []

mutual

def height : Json → Nat
  | array items => heightOfItems items + 1
  | object members => heightOfMembers members + 1
  | _ => 0

def heightOfItems : List Json → Nat
  | [] => 0
  | item :: rest => max item.height (heightOfItems rest)

def heightOfMembers : List (String × Json) → Nat
  | [] => 0
  | (_, value) :: rest => max value.height (heightOfMembers rest)

end

mutual

/-- The value with every object's repeated keys reduced to their first place and last value. -/
def collapse : Json → Json
  | array items => array (collapseItems items)
  | object members => object (collapseMembers [] members)
  | value => value

def collapseItems : List Json → List Json
  | [] => []
  | item :: rest => item.collapse :: collapseItems rest

/-- The members inserted one by one behind the ones already collapsed. -/
def collapseMembers (done : Members) : Members → Members
  | [] => done
  | (key, value) :: rest => collapseMembers (Members.insert done key value.collapse) rest

end

mutual

def WellFormed : Json → Prop
  | array items => ItemsWellFormed items
  | object members => (members.map Prod.fst).Nodup ∧ MembersWellFormed members
  | _ => True

def ItemsWellFormed : List Json → Prop
  | [] => True
  | item :: rest => item.WellFormed ∧ ItemsWellFormed rest

/-- No object among the member values holds a key twice. -/
def MembersWellFormed : List (String × Json) → Prop
  | [] => True
  | (_, value) :: rest => value.WellFormed ∧ MembersWellFormed rest

end

/-- Integers agree with integers and reals with reals, the two zeros being one real. -/
def sameNumber : Number → Number → Bool
  | .integer x, .integer y => x == y
  | .real x, .real y => x.sameValue y
  | _, _ => false

mutual

/-- Equal as data: the order of object keys does not count. -/
def agrees : Json → Json → Bool
  | null, null => true
  | bool x, bool y => x == y
  | number x, number y => sameNumber x y
  | string x, string y => x == y
  | array xs, array ys => itemsAgree xs ys
  | object xs, object ys => xs.length == ys.length && membersAgree xs ys
  | _, _ => false

def itemsAgree : List Json → List Json → Bool
  | [], [] => true
  | x :: xs, y :: ys => x.agrees y && itemsAgree xs ys
  | _, _ => false

/-- Every member of the first list has an equal one in the second. -/
def membersAgree : List (String × Json) → Members → Bool
  | [], _ => true
  | (key, value) :: rest, other =>
    (match Members.get? other key with
      | some found => value.agrees found
      | none => false) && membersAgree rest other

end

end Json
end ManifestTree
