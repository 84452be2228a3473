import ManifestTree.Failure
import ManifestTree.Document.Overlay

/-!
# Reading and writing inside a document

`get?` follows a path. The three writers `set`, `append` and `mergeAt` share one walk: objects are
created where the path runs through missing keys, and nothing else is created. A key that holds null
is occupied like any other; only a missing key, and a null document as a whole, count as vacant.
A failed walk keeps the keys that it has created, so a writer answers with its outcome and with the
document afterwards. `take` removes a value and the objects that its removal leaves empty.
-/

namespace ManifestTree.Json

def getSteps? : List Step → Json → Option Json
  | [], value => some value
  | .key name :: rest, object members =>
    match Members.get? members name with
    | some value => getSteps? rest value
    | none => none
  | .index position :: rest, array items =>
    match items[position]? with
    | some value => getSteps? rest value
    | none => none
  | _ :: _, _ => none

def get? (document : Json) (path : FieldPath) : Option Json := getSteps? path.steps document

/-- A place inside a document: the value that it holds, or nothing where it is vacant. -/
abbrev Place := Option Json

/-- The kind of the value at a place, a vacant one showing as null. -/
def Place.kind (place : Place) : Kind := (place.getD null).kind

/-- A document as a place: the null document is vacant. -/
def Place.ofDocument : Json → Place
  | null => none
  | document => some document

/-- What a writer does at its place: an outcome and what the place holds afterwards. -/
abbrev Action (α : Type) := Place → Except Failure α × Place

/-- The walk to a place, with the steps already taken and those to come; the place is handed to an
action. -/
def walk {α : Type} (path : FieldPath) (action : Action α) :
    List Step → List Step → Place → Except Failure α × Place
  | _, [], place => action place
  | taken, .key name :: rest, place =>
    match place with
    | none =>
      let (outcome, inner) := walk path action (taken ++ [.key name]) rest none
      (outcome, some (object [(name, inner.getD null)]))
    | some (object members) =>
      let (outcome, inner) :=
        walk path action (taken ++ [.key name]) rest (Members.get? members name)
      (outcome, some (object (Members.insert members name (inner.getD null))))
    | some other => (.error (.occupied ⟨taken⟩), some other)
  | taken, .index position :: rest, place =>
    match place with
    | some (array items) =>
      match items[position]? with
      | some item =>
        let (outcome, inner) := walk path action (taken ++ [.index position]) rest (some item)
        (outcome, some (array (items.set position (inner.getD null))))
      | none =>
        (.error (.invalidPath path.text (.outOfBounds position items.length)), some (array items))
    | other => (.error (.mismatch ⟨taken⟩ .many other.kind), other)

def write {α : Type} (document : Json) (path : FieldPath) (action : Action α) :
    Except Failure α × Json :=
  let (outcome, place) := walk path action [] path.steps (Place.ofDocument document)
  (outcome, place.getD null)

def fill (path : FieldPath) (value : Json) : Action Unit
  | none => (.ok (), some value)
  | some (array items) => (.error (.mismatch path .single .array), some (array items))
  | some other => (.error (.occupied path), some other)

/-- Adds an item to the array at a place, a vacant one counting as the empty array; answers its
index. -/
def addItem (path : FieldPath) (value : Json) : Action Nat
  | none => (.ok 0, some (array [value]))
  | some (array items) => (.ok items.length, some (array (items ++ [value])))
  | some other => (.error (.mismatch path .many other.kind), some other)

/-- Lays a value over the one at a place, a vacant one counting as null. -/
def layOver (value : Json) : Action Unit
  | place => (.ok (), some ((place.getD null).overlay value))

def set (document : Json) (path : FieldPath) (value : Json) : Except Failure Unit × Json :=
  document.write path (fill path value)

/-- Appends a value to the array at a place, and answers its index. -/
def append (document : Json) (path : FieldPath) (value : Json) : Except Failure Nat × Json :=
  document.write path (addItem path value)

def mergeAt (document : Json) (path : FieldPath) (value : Json) : Except Failure Unit × Json :=
  document.write path (layOver value)

/-- The value at some steps, taken out, and what is left. -/
def takeSteps : List Step → Json → Option (Json × Json)
  | [], _ => none
  | .key name :: rest, object members =>
    match Members.get? members name with
    | none => none
    | some value =>
      if rest.isEmpty then some (value, object (Members.erase members name))
      else
        match takeSteps rest value with
        | none => none
        | some (taken, object []) => some (taken, object (Members.erase members name))
        | some (taken, left) => some (taken, object (Members.insert members name left))
  | .index position :: rest, array items =>
    match items[position]? with
    | none => none
    | some value =>
      if rest.isEmpty then some (value, array (items.eraseIdx position))
      else
        match takeSteps rest value with
        | none => none
        | some (taken, left) => some (taken, array (items.set position left))
  | _ :: _, _ => none

/-- The value at a path, taken out, and what is left; objects that this empties go with it. -/
def take (document : Json) (path : FieldPath) : Option (Json × Json) :=
  takeSteps path.steps document

end ManifestTree.Json
