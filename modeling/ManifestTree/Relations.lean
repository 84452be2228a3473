import ManifestTree.Failure

/-!
# Relations between node types

A relation says where values of a child type stand inside values of a parent type. Several relations
of one pair of types are told apart by tags; a relation without a tag, or with the tag `default`,
has the label `default`. `Relations.ofList` groups the declared relations once and refuses two of
one pair and label, so that `resolve` needs two look-ups and a choice.
-/

namespace ManifestTree

/-- One place that values of a child type may take inside values of a parent type. -/
structure Relation where
  child : TypeName
  parent : TypeName
  path : FieldPath
  /-- Values are appended to an array at the place. -/
  isMany : Bool
  /-- What tells this relation from the others of its pair. -/
  tag : Option String
  deriving DecidableEq, Repr, Inhabited

namespace Relation

def defaultLabel : String := "default"

def label (relation : Relation) : String := relation.tag.getD defaultLabel

/-- The relation with an explicit `default` tag removed. -/
def normalize (relation : Relation) : Relation :=
  if relation.tag = some defaultLabel then { relation with tag := none } else relation

def multiplicity (relation : Relation) : Multiplicity := if relation.isMany then .many else .single

end Relation

/-- The relations of one pair of types. -/
inductive Choice where
  | only (relation : Relation)
  /-- Several, at most one of them without a tag, the others by ascending tag. -/
  | tagged (untagged : Option Relation) (byTag : List (String × Relation))
  deriving Repr, Inhabited

namespace Choice

/-- A relation put at its place by ascending tag, unless the tag is taken. -/
def insertByTag (tag : String) (relation : Relation) :
    List (String × Relation) → Option (List (String × Relation))
  | [] => some [(tag, relation)]
  | (other, found) :: rest =>
    if tag = other then none
    else if tag < other then some ((tag, relation) :: (other, found) :: rest)
    else (insertByTag tag relation rest).map ((other, found) :: ·)

/-- The failure for a second relation of one pair and label. -/
def duplicate (relation : Relation) : Failure :=
  .duplicateRelation relation.parent relation.child relation.label

/-- Several relations of one pair sorted by tag, up to the first repeated label. -/
def gather (untagged : Option Relation) (byTag : List (String × Relation)) :
    List Relation → Except Failure Choice
  | [] => .ok (.tagged untagged byTag)
  | relation :: rest =>
    match relation.tag with
    | none =>
      if untagged.isSome then .error (duplicate relation) else gather (some relation) byTag rest
    | some tag =>
      match insertByTag tag relation byTag with
      | none => .error (duplicate relation)
      | some byTag => gather untagged byTag rest

def ofList : List Relation → Except Failure Choice
  | [relation] => .ok (.only relation)
  | relations => gather none [] relations

/-- The labels on offer: `default` first, then the tags in ascending order. -/
def candidates : Choice → List String
  | only relation => [relation.label]
  | tagged untagged byTag =>
    (if untagged.isSome then [Relation.defaultLabel] else []) ++ byTag.map Prod.fst

/-- The relation that a tag selects; a single relation is selected without one too. -/
def select : Choice → Option String → Option Relation
  | only relation, none => some relation
  | only relation, some tag => if relation.label = tag then some relation else none
  | tagged _ _, none => none
  | tagged untagged byTag, some tag =>
    if tag = Relation.defaultLabel then untagged else byTag.lookup tag

end Choice

/-- Relations grouped for look-up. -/
structure Relations where
  byParent : Association TypeName (List Relation)
  choices : Association (TypeName × TypeName) Choice
  deriving Inhabited

namespace Relations

/-- The choices of the groups, up to the first group with a repeated label. -/
def chooseAll : Association (TypeName × TypeName) (List Relation) →
    Except Failure (Association (TypeName × TypeName) Choice)
  | [] => .ok []
  | (pair, relations) :: rest => do
    let choice ← Choice.ofList relations
    let choices ← chooseAll rest
    pure ((pair, choice) :: choices)

/-- Declared relations grouped for look-up, unless two of one pair have the same label. -/
def ofList (declared : List Relation) : Except Failure Relations := do
  let relations := declared.map Relation.normalize
  let choices ← chooseAll
    (Association.group (fun relation ↦ (relation.parent, relation.child)) relations)
  pure ⟨Association.group Relation.parent relations, choices⟩

/-- Every relation of a parent in the order of declaration. -/
def under (relations : Relations) (parent : TypeName) : List Relation :=
  (relations.byParent.get? parent).getD []

/-- The relation that places a child under a parent, chosen by a tag where several do. -/
def resolve (relations : Relations) (parent child : TypeName) (tag : Option String) :
    Except Failure Relation :=
  match relations.choices.get? (parent, child) with
  | none => .error (.unplaceable parent child [parent])
  | some choice =>
    match choice.select tag with
    | some relation => .ok relation
    | none => .error (.ambiguous parent child tag choice.candidates [parent])

/-- The tag that an author must give to reach a relation again; none when it is alone in its
pair. -/
def selector (relations : Relations) (relation : Relation) : Option String :=
  match relations.choices.get? (relation.parent, relation.child) with
  | some (.tagged _ _) => some relation.label
  | _ => none

def size (relations : Relations) : Nat :=
  (relations.byParent.flatMap Prod.snd).length

def isEmpty (relations : Relations) : Bool := relations.byParent.isEmpty

end Relations
end ManifestTree
