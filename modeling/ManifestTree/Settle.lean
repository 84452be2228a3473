import ManifestTree.Compose

/-!
# Settling a tree

A tree with deferred values is composed in passes. After a pass in which a component gave up, the
handles that the pass read without success are awaited one after another in the order of reading,
and then the whole tree is composed again. Supplies change only while something is awaited: the
list of batches to come says how, the actions of one batch taking place between two looks at the
awaited handle. A run ends with documents, with a failure, or waiting still when the batches are
used up. Every pass has a tree of its own, since a component may look at something of its own in
between; most trees stay the same throughout. A run may be watched: whoever does so is told of each
pass and of each requirement before it is judged, and a run itself is one that nobody watches.
-/

namespace ManifestTree.Settle

inductive Event where
  /-- A pass took place; `checked` requirements were judged after it. -/
  | passed (log : PassLog) (checked : Nat)
  | waited (outcome : SupplyOutcome)
  deriving Inhabited

inductive Outcome where
  | documents (documents : List Json)
  | failed (failure : Failure)
  | waiting
  deriving Inhabited

/-- A run between two batches of actions. -/
inductive Phase where
  | finished (outcome : Outcome)
  /-- It awaits the first of some handles, which has no value but may still get one. -/
  | blocked (pending : List Handle)
  deriving Inhabited

def Outcome.ofExcept (result : Except Failure (List Json)) : Outcome :=
  match result with
  | .ok composed => .documents composed
  | .error failure => .failed failure

/-- The run awaits a handle without a value, which is hopeless once nobody can give it. -/
def await (supplies : Supplies) (handle : Handle) (rest : List Handle) : Phase :=
  if supplies.isOpen handle then .blocked (handle :: rest)
  else .finished (.failed (.abandoned handle.label))

def judged : Except Failure (List Json) → PassLog → Nat
  | .error _, _ => 0
  | .ok _, log => Compose.checked log

/-- A run: what is seen of it, its outcome and the supplies at its end. -/
structure Run where
  events : List Event
  outcome : Outcome
  supplies : Supplies
  deriving Inhabited

/-- What those who watch a run are told. -/
inductive Deed where
  | passes (supplies : Supplies)
  | judges (requirement : Requirement)

/-! ## Watched runs -/

namespace Watched

variable {m : Type → Type} [Monad m] (watch : Deed → m Unit)

/-- Those who watch are told before a check is evaluated. -/
def judge (supplies : Supplies) (requirement : Requirement) : m Bool := do
  watch (.judges requirement)
  pure (requirement.check supplies)

def afterPass (supplies : Supplies) : Except Failure (List Json) → PassLog → m Phase
  | .error failure, _ => pure (.finished (.failed failure))
  | .ok documents, log =>
    if Compose.isSettled log then do
      let result ← Compose.finalizeBy (judge watch supplies) documents log
      pure (.finished (Outcome.ofExcept result))
    else
      match log.pending with
      | [] => pure (.finished (.failed (.unsettled log.suspended)))
      | handle :: rest => pure (await supplies handle rest)

/-- A pass, what is seen of it and the phase that it leads to. -/
def attempt (schema : Schema) (marker : String) (tree : Node) (supplies : Supplies) :
    m (Event × Phase) := do
  watch (.passes supplies)
  let (result, log) := Compose.pass ⟨schema, marker, supplies⟩ tree
  let phase ← afterPass watch supplies result log
  pure (.passed log (judged result log), phase)

/-- What follows a batch of actions: the next handle is awaited, or a new pass takes place when all
have a value. -/
def resume (schema : Schema) (marker : String) (tree : Node) (supplies : Supplies)
    (pending : List Handle) : m (List Event × Phase) :=
  match supplies.unready pending with
  | handle :: rest => pure ([], await supplies handle rest)
  | [] => do
    let (event, phase) ← attempt watch schema marker tree supplies
    pure ([event], phase)

/-- The run from a phase on, under the batches and with the trees of the passes to come. -/
def proceed (schema : Schema) (marker : String) (trees : Nat → Node) (supplies : Supplies) :
    Phase → List (List SupplyAction) → m Run
  | .finished outcome, _ => pure ⟨[], outcome, supplies⟩
  | .blocked _, [] => pure ⟨[], .waiting, supplies⟩
  | .blocked pending, batch :: rest => do
    let (outcomes, supplies) := supplies.applyAll batch
    let (events, phase) ← resume watch schema marker (trees 0) supplies pending
    let run ← proceed schema marker (fun pass ↦ trees (pass + events.length)) supplies phase rest
    pure { run with events := outcomes.map Event.waited ++ events ++ run.events }

/-- The run of one tree a pass under batches of actions, one batch whenever something is
awaited. -/
def runTrees (schema : Schema) (marker : String) (trees : Nat → Node) (supplies : Supplies)
    (batches : List (List SupplyAction)) : m Run := do
  let (event, phase) ← attempt watch schema marker (trees 0) supplies
  let run ← proceed watch schema marker (fun pass ↦ trees (pass + 1)) supplies phase batches
  pure { run with events := event :: run.events }

end Watched

/-! ## Runs -/

def unwatched (_ : Deed) : Id Unit := pure ()

def afterPass (supplies : Supplies) (result : Except Failure (List Json)) (log : PassLog) :
    Phase :=
  Id.run (Watched.afterPass unwatched supplies result log)

def attempt (schema : Schema) (marker : String) (tree : Node) (supplies : Supplies) :
    Event × Phase :=
  Id.run (Watched.attempt unwatched schema marker tree supplies)

def resume (schema : Schema) (marker : String) (tree : Node) (supplies : Supplies)
    (pending : List Handle) : List Event × Phase :=
  Id.run (Watched.resume unwatched schema marker tree supplies pending)

def proceed (schema : Schema) (marker : String) (trees : Nat → Node) (supplies : Supplies)
    (phase : Phase) (batches : List (List SupplyAction)) : Run :=
  Id.run (Watched.proceed unwatched schema marker trees supplies phase batches)

def runTrees (schema : Schema) (marker : String) (trees : Nat → Node) (supplies : Supplies)
    (batches : List (List SupplyAction)) : Run :=
  Id.run (Watched.runTrees unwatched schema marker trees supplies batches)

/-- The run of a tree that is the same in every pass. -/
def runBatches (schema : Schema) (marker : String) (tree : Node) (supplies : Supplies)
    (batches : List (List SupplyAction)) : Run :=
  runTrees schema marker (fun _ ↦ tree) supplies batches

/-- The run of a tree under actions that take place one by one whenever something is awaited. -/
def run (schema : Schema) (marker : String) (tree : Node) (supplies : Supplies)
    (actions : List SupplyAction) : Run :=
  runBatches schema marker tree supplies (actions.map fun action ↦ [action])

end ManifestTree.Settle
