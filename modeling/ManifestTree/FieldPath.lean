/-!
# Field paths

A field path leads from a value to a place inside it by object keys and array indices. Its text
writes keys separated by dots and indices in brackets, as in `spec.containers[0].name`; the empty
text is the root. `parse` accepts exactly the parts between dots that are a key without an opening
bracket followed by bracketed indices, not both missing.
-/

namespace ManifestTree

inductive Step where
  | key (name : String)
  | index (position : Nat)
  deriving DecidableEq, Repr, Inhabited

/-- A sequence of steps from a value to a place inside it. -/
structure FieldPath where
  steps : List Step
  deriving DecidableEq, Repr, Inhabited

/-- Why a path text was refused or could not be followed. -/
inductive PathFault where
  | emptyPart
  /-- Something other than a closed bracket group follows a key or an index. -/
  | unclosedIndex
  | notAnIndex (text : String)
  | outOfBounds (index length : Nat)
  | described (text : String)
  deriving DecidableEq, Repr, Inhabited

def PathFault.text : PathFault → String
  | .emptyPart => "empty segment"
  | .unclosedIndex => "unterminated index"
  | .notAnIndex text => "'" ++ text ++ "' is not an index"
  | .outOfBounds index length =>
    "index " ++ toString index ++ " is out of bounds for " ++ toString length ++ " item(s)"
  | .described text => text

namespace FieldPath

def root : FieldPath := ⟨[]⟩

def ofKeys (names : List String) : FieldPath := ⟨names.map Step.key⟩

def isRoot (path : FieldPath) : Bool := path.steps.isEmpty

def join (path other : FieldPath) : FieldPath := ⟨path.steps ++ other.steps⟩

def key (path : FieldPath) (name : String) : FieldPath := ⟨path.steps ++ [.key name]⟩

def index (path : FieldPath) (position : Nat) : FieldPath := ⟨path.steps ++ [.index position]⟩

def take (path : FieldPath) (count : Nat) : FieldPath := ⟨path.steps.take count⟩

def keysOnly (path : FieldPath) : Bool :=
  path.steps.all fun step ↦ match step with
    | .key _ => true
    | .index _ => false

def tailText : List Step → String
  | [] => ""
  | .key name :: rest => "." ++ name ++ tailText rest
  | .index position :: rest => "[" ++ toString position ++ "]" ++ tailText rest

def text (path : FieldPath) : String :=
  match path.steps with
  | .key name :: rest => name ++ tailText rest
  | steps => tailText steps

/-- Steps are compared one by one: a key before an index, keys by code points, indices by size. -/
def compareStep : Step → Step → Ordering
  | .key x, .key y => compare x y
  | .key _, .index _ => .lt
  | .index _, .key _ => .gt
  | .index x, .index y => compare x y

/-- Step by step, a shorter path before the longer ones it starts. -/
def compareSteps : List Step → List Step → Ordering
  | [], [] => .eq
  | [], _ => .lt
  | _, [] => .gt
  | x :: xs, y :: ys => (compareStep x y).then (compareSteps xs ys)

def compare (path other : FieldPath) : Ordering := compareSteps path.steps other.steps

/-- The pieces of a text between the occurrences of a character, in order. -/
def splitAt (separator : Char) : List Char → List (List Char)
  | [] => [[]]
  | c :: rest =>
    if c = separator then [] :: splitAt separator rest
    else match splitAt separator rest with
      | [] => [[c]]
      | piece :: pieces => (c :: piece) :: pieces

def digitsValue (digits : List Char) : Nat :=
  digits.foldl (fun value c ↦ value * 10 + (c.toNat - '0'.toNat)) 0

/-- An index below `2 ^ 64`: decimal digits, at least one, behind an optional plus sign. -/
def indexOf? (cs : List Char) : Option Nat :=
  let digits := match cs with
    | '+' :: rest => rest
    | _ => cs
  if digits.isEmpty ∨ ¬ digits.all Char.isDigit ∨ digitsValue digits ≥ Nat.pow 2 64 then none
  else some (digitsValue digits)

/-- The bracket groups behind a key; `inside` holds the reversed text of the group that is open. -/
def indices (inside : Option (List Char)) : List Char → Except PathFault (List Step)
  | [] => if inside.isSome then .error .unclosedIndex else .ok []
  | c :: rest =>
    match inside with
    | none => if c = '[' then indices (some []) rest else .error .unclosedIndex
    | some group =>
      if c = ']' then
        match indexOf? group.reverse with
        | some position => (indices none rest).map (Step.index position :: ·)
        | none => .error (.notAnIndex (String.ofList group.reverse))
      else indices (some (c :: group)) rest

def part (cs : List Char) : Except PathFault (List Step) :=
  let name := cs.takeWhile (· ≠ '[')
  if cs.isEmpty then .error .emptyPart
  else do
    let groups ← indices none (cs.dropWhile (· ≠ '['))
    pure (if name.isEmpty then groups else .key (String.ofList name) :: groups)

/-- The steps of the parts in order, up to the first faulty one. -/
def parts : List (List Char) → Except PathFault (List Step)
  | [] => .ok []
  | cs :: rest => do
    let front ← part cs
    let back ← parts rest
    pure (front ++ back)

def parse (text : String) : Except PathFault FieldPath :=
  if text.isEmpty then .ok root
  else (parts (splitAt '.' text.toList)).map FieldPath.mk

end FieldPath
end ManifestTree
