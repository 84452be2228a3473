import ManifestTree.Failure

/-!
# Finding the type of a document

A document says what it is by its `apiVersion` and its `kind`. The index knows the type of each
registered pair, the last registration winning, and the module that declares a type.
-/

namespace ManifestTree

/-- Types by the pair that identifies their documents, and modules by type. -/
structure TypeIndex where
  identities : Association (String × String) TypeName
  modules : Association TypeName String
  deriving Inhabited

namespace TypeIndex

def apiVersionField : String := "apiVersion"

def kindField : String := "kind"

def empty : TypeIndex := ⟨[], []⟩

def lookup (index : TypeIndex) (apiVersion kind : String) : Option TypeName :=
  index.identities.get? (apiVersion, kind)

def register (index : TypeIndex) (apiVersion kind : String) (name : TypeName) : TypeIndex :=
  { index with identities := index.identities.insert (apiVersion, kind) name }

def setModule (index : TypeIndex) (name : TypeName) (module : String) : TypeIndex :=
  { index with modules := index.modules.insert name module }

def moduleOf (index : TypeIndex) (name : TypeName) : Option String := index.modules.get? name

def size (index : TypeIndex) : Nat := index.identities.length

def isEmpty (index : TypeIndex) : Bool := index.identities.isEmpty

/-- The text at a field of a document, empty when the field is missing or holds something else. -/
def textField (document : Json) (name : String) : String :=
  match Members.get? document.members name with
  | some (.string text) => text
  | _ => ""

/-- The type of a document by its identifying fields. -/
def identify (index : TypeIndex) (document : Json) : Except Failure TypeName :=
  let apiVersion := textField document apiVersionField
  let kind := textField document kindField
  match index.lookup apiVersion kind with
  | some name => .ok name
  | none => .error (.unrecognized apiVersion kind)

end TypeIndex
end ManifestTree
