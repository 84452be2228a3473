import ManifestTree.Document.Access
import ManifestTree.Node
import ManifestTree.Schema

/-!
# Composing trees into documents

One pass walks a tree depth first. An element is placed by the relation between its type and the
innermost enclosing element's type; outside every element it is laid over the place where it
stands. A literal writes at its path, a transform rewrites what its children compose. A pass stops
at the first failure, but its log survives: which components were rendered, which handles were read
without success, which requirements were stated, how many components gave up.
-/

namespace ManifestTree

/-- A condition that must hold once everything has settled. -/
structure Requirement where
  owner : String
  message : String
  check : Supplies → Bool
  deriving Inhabited

/-- What happened in a pass, in order. -/
structure PassLog where
  rendered : List String
  /-- The handles that were read without success. -/
  pending : List Handle
  requirements : List Requirement
  suspended : Nat
  deriving Inhabited

namespace PassLog

def empty : PassLog := ⟨[], [], [], 0⟩

def addRendered (log : PassLog) (name : String) : PassLog :=
  { log with rendered := log.rendered ++ [name] }

def addPending (log : PassLog) (handle : Handle) : PassLog :=
  { log with pending := log.pending ++ [handle] }

def addRequirement (log : PassLog) (requirement : Requirement) : PassLog :=
  { log with requirements := log.requirements ++ [requirement] }

def addSuspended (log : PassLog) : PassLog := { log with suspended := log.suspended + 1 }

end PassLog

/-- A part of a pass: it extends the log and either answers or fails. -/
abbrev Weaving := ExceptT Failure (StateM PassLog)

namespace Compose

structure Context where
  schema : Schema
  marker : String
  supplies : Supplies
  deriving Inhabited

def note (change : PassLog → PassLog) : Weaving Unit := modify change

/-- An answer or a failure that leaves the log alone. -/
def settleWith {α : Type} (outcome : Except Failure α) : Weaving α := liftExcept outcome

/-- A writer's outcome, its document once it has succeeded. -/
def written {α : Type} (result : Except Failure α × Json) : Weaving (α × Json) :=
  settleWith (result.1.map fun answer ↦ (answer, result.2))

/-- The relation that places a type below its enclosing types, none outside every element. -/
def locate (schema : Schema) (enclosing : List TypeName) (type : TypeName) (tag : Option String) :
    Except Failure (Option Relation) :=
  match enclosing.getLast? with
  | none => .ok none
  | some parent =>
    ((schema.relations.resolve parent type tag).mapError (Failure.withChain enclosing)).map some

/-- An element's value put where its relation says, or laid over the base outside every element. -/
def putElement (relation : Option Relation) (base : FieldPath) (document value : Json) :
    Weaving Json :=
  match relation with
  | none => do pure (← written (document.mergeAt base value)).2
  | some relation =>
    let target := base.join relation.path
    if relation.isMany then do pure (← written (document.append target value)).2
    else do pure (← written (document.set target value)).2

/-- A literal's own write: the document after it and the base of its children. -/
def putLiteral (base path : FieldPath) (value : Option Json) (isItem : Bool) (document : Json) :
    Weaving (FieldPath × Json) :=
  let target := base.join path
  if isItem then do
    let (position, document) ← written (document.append target (value.getD (.object [])))
    pure (target.index position, document)
  else
    match value with
    | some value => do pure (target, (← written (document.set target value)).2)
    | none => pure (target, document)

/-- The value that a transform starts from: what stands at the base, an object where there is
nothing. -/
def startValue (document : Json) (base : FieldPath) : Json :=
  match document.get? base with
  | some .null => .object []
  | some value => value
  | none => .object []

mutual

/-- The document with a node composed into it at a base. -/
def weave (context : Context) (enclosing : List TypeName) (base : FieldPath) (document : Json) :
    Node → Weaving Json
  | .fragment children => weaveAll context enclosing base document children
  | .element type props tag children => do
    let relation ← settleWith (locate context.schema enclosing type tag)
    let fields ← settleWith ((context.schema.rulesOf type).expand context.marker props)
    let value ←
      weaveAll context (enclosing ++ [type]) FieldPath.root (.object fields) children
    putElement relation base document value
  | .literal path value isItem children => do
    let (inner, document) ← putLiteral base path value isItem document
    weaveAll context enclosing inner document children
  | .transform rewrite children => do
    let scratch ←
      weaveAll context enclosing FieldPath.root (startValue document base) children
    pure (← written (document.mergeAt base (scratch.overlay (rewrite scratch)))).2
  | .component name script => do
    note fun log ↦ log.addRendered name
    weaveScript context name enclosing base document script

/-- The document with several nodes composed into it, one after another. -/
def weaveAll (context : Context) (enclosing : List TypeName) (base : FieldPath) (document : Json) :
    List Node → Weaving Json
  | [] => pure document
  | node :: rest => do
    let document ← weave context enclosing base document node
    weaveAll context enclosing base document rest

/-- The document with the tree that a script yields composed into it. -/
def weaveScript (context : Context) (owner : String) (enclosing : List TypeName) (base : FieldPath)
    (document : Json) : Script → Weaving Json
  | .yield node => weave context enclosing base document node
  | .suspend => do
    note PassLog.addSuspended
    pure document
  | .read handle next => do
    let value := context.supplies.value? handle
    if value.isNone then note fun log ↦ log.addPending handle
    weaveScript context owner enclosing base document (next value)
  | .require message check next => do
    note fun log ↦ log.addRequirement ⟨owner, message, check⟩
    weaveScript context owner enclosing base document next

end

/-- The document of one node: null becomes the empty object. -/
def documentOf (context : Context) (node : Node) : Weaving Json := do
  match ← weave context [] FieldPath.root .null node with
  | .null => pure (.object [])
  | document => pure document

mutual

def collect (context : Context) : Node → Weaving (List Json)
  | .fragment children => collectAll context children
  | .component name script => do
    note fun log ↦ log.addRendered name
    collectScript context name script
  | .element type props tag children => do
    pure [← documentOf context (.element type props tag children)]
  | .literal path value isItem children => do
    pure [← documentOf context (.literal path value isItem children)]
  | .transform rewrite children => do
    pure [← documentOf context (.transform rewrite children)]

def collectAll (context : Context) : List Node → Weaving (List Json)
  | [] => pure []
  | node :: rest => do
    let front ← collect context node
    let back ← collectAll context rest
    pure (front ++ back)

def collectScript (context : Context) (owner : String) : Script → Weaving (List Json)
  | .yield node => collect context node
  | .suspend => do
    note PassLog.addSuspended
    pure []
  | .read handle next => do
    let value := context.supplies.value? handle
    if value.isNone then note fun log ↦ log.addPending handle
    collectScript context owner (next value)
  | .require message check next => do
    note fun log ↦ log.addRequirement ⟨owner, message, check⟩
    collectScript context owner next

end

/-- One pass over a tree: documents or a failure, and the log. -/
def pass (context : Context) (tree : Node) : Except Failure (List Json) × PassLog :=
  (collect context tree).run.run PassLog.empty

/-- A finished pass settled when no component gave up. -/
def isSettled (log : PassLog) : Bool := log.suspended == 0

section Finalizing

variable {m : Type → Type} [Monad m] (judge : Requirement → m Bool)

/-- The failures of the requirements that are judged not to hold, in order. -/
def violationsBy : List Requirement → m (List Failure)
  | [] => pure []
  | requirement :: rest => do
    let holds ← judge requirement
    let failures ← violationsBy rest
    pure (if holds then failures
      else .violated requirement.owner requirement.message :: failures)

/-- The documents of a finished pass, provided that it settled and its requirements are judged to
hold. -/
def finalizeBy (documents : List Json) (log : PassLog) : m (Except Failure (List Json)) :=
  if !isSettled log then pure (.error (.unsettled log.suspended))
  else do
    match Failure.batch? (← violationsBy judge log.requirements) with
    | some failure => pure (.error failure)
    | none => pure (.ok documents)

end Finalizing

/-- The failures of the requirements that do not hold, in order. -/
def violations (supplies : Supplies) (requirements : List Requirement) : List Failure :=
  Id.run (violationsBy (fun requirement ↦ pure (requirement.check supplies)) requirements)

/-- The documents of a finished pass, provided that it settled and its requirements hold. -/
def finalize (supplies : Supplies) (documents : List Json) (log : PassLog) :
    Except Failure (List Json) :=
  Id.run (finalizeBy (fun requirement ↦ pure (requirement.check supplies)) documents log)

def checked (log : PassLog) : Nat := if isSettled log then log.requirements.length else 0

def compose (context : Context) (tree : Node) : Except Failure (List Json) :=
  match pass context tree with
  | (.ok documents, log) => finalize context.supplies documents log
  | (.error failure, _) => .error failure

end Compose
end ManifestTree
