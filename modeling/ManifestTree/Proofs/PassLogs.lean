import ManifestTree.Proofs.Weaving

/-!
# What a finished pass has logged

The log of a pass that comes to its end is read off the tree alone: the components in depth-first
order, each with the handles that it reads without success, the requirements that it states and its
giving up. Neither the schema nor the documents built so far have a part in it. Nothing is said here
about the log of a pass that fails, which stops at the failure.
-/

namespace ManifestTree

/-! ## Logs one after another -/

namespace PassLog

/-- What two stretches of a pass have logged together. -/
def append (log more : PassLog) : PassLog :=
  ⟨log.rendered ++ more.rendered, log.pending ++ more.pending,
    log.requirements ++ more.requirements, log.suspended + more.suspended⟩

@[simp]
theorem append_empty (log : PassLog) : log.append empty = log := by
  simp [append, empty]

@[simp]
theorem empty_append (log : PassLog) : empty.append log = log := by
  simp [append, empty]

theorem append_assoc (log more last : PassLog) :
    (log.append more).append last = log.append (more.append last) := by
  simp [append, Nat.add_assoc]

def rendering (name : String) : PassLog := empty.addRendered name

def lacking (handle : Handle) : PassLog := empty.addPending handle

def requiring (requirement : Requirement) : PassLog := empty.addRequirement requirement

def givingUp : PassLog := empty.addSuspended

theorem addRendered_eq_append (log : PassLog) (name : String) :
    log.addRendered name = log.append (rendering name) := by
  simp [addRendered, append, rendering, empty]

theorem addPending_eq_append (log : PassLog) (handle : Handle) :
    log.addPending handle = log.append (lacking handle) := by
  simp [addPending, append, lacking, empty]

theorem addRequirement_eq_append (log : PassLog) (requirement : Requirement) :
    log.addRequirement requirement = log.append (requiring requirement) := by
  simp [addRequirement, append, requiring, empty]

theorem addSuspended_eq_append (log : PassLog) : log.addSuspended = log.append givingUp := by
  simp [addSuspended, append, givingUp, empty]

end PassLog

mutual

/-- What a pass with these supplies logs in the tree, depth first. -/
def Node.logged (supplies : Supplies) : Node → PassLog
  | .fragment children => Node.allLogged supplies children
  | .element _ _ _ children => Node.allLogged supplies children
  | .literal _ _ _ children => Node.allLogged supplies children
  | .transform _ children => Node.allLogged supplies children
  | .component name script => (PassLog.rendering name).append (script.logged supplies name)

/-- What a pass logs in the nodes, one after another. -/
def Node.allLogged (supplies : Supplies) : List Node → PassLog
  | [] => PassLog.empty
  | node :: rest => (node.logged supplies).append (Node.allLogged supplies rest)

/-- What a pass logs in a component's script and in the tree that it yields. -/
def Script.logged (supplies : Supplies) (owner : String) : Script → PassLog
  | .yield node => node.logged supplies
  | .suspend => PassLog.givingUp
  | .read handle next =>
    (if (supplies.value? handle).isNone then PassLog.lacking handle else PassLog.empty).append
      ((next (supplies.value? handle)).logged supplies owner)
  | .require message check next =>
    (PassLog.requiring ⟨owner, message, check⟩).append (next.logged supplies owner)

end

/-! ## Parts of a pass -/

namespace Weaving

variable {α β : Type}

/-- Whenever the part answers, it has logged the entry. -/
def Logs (part : Weaving α) (entry : PassLog) : Prop :=
  ∀ log answer after, exec part log = (.ok answer, after) → after = log.append entry

theorem Logs.pure (answer : α) : Logs (Pure.pure answer) PassLog.empty := by
  intro log result after hexec
  cases hexec
  exact (PassLog.append_empty log).symm

theorem Logs.settleWith (outcome : Except Failure α) :
    Logs (Compose.settleWith outcome) PassLog.empty := by
  intro log answer after hexec
  rw [exec_settleWith] at hexec
  cases hexec
  exact (PassLog.append_empty log).symm

theorem Logs.note {change : PassLog → PassLog} {entry : PassLog}
    (h : ∀ log, change log = log.append entry) : Logs (Compose.note change) entry := by
  intro log answer after hexec
  cases hexec
  exact h log

theorem Logs.bind {part : Weaving α} {next : α → Weaving β} {entry more : PassLog}
    (h : Logs part entry) (hnext : ∀ answer, Logs (next answer) more) :
    Logs (part >>= next) (entry.append more) := by
  intro log answer after hexec
  obtain ⟨first, middle, hpart, hrest⟩ := exec_bind_eq_ok_iff.mp hexec
  rw [hnext first middle answer after hrest, h log first middle hpart, PassLog.append_assoc]

/-- A part that logs nothing may stand before another one. -/
theorem Logs.quiet_bind {part : Weaving α} {next : α → Weaving β} {entry : PassLog}
    (h : Logs part PassLog.empty) (hnext : ∀ answer, Logs (next answer) entry) :
    Logs (part >>= next) entry := by
  rw [← PassLog.empty_append entry]
  exact h.bind hnext

/-- A part that logs nothing may stand behind another one. -/
theorem Logs.bind_quiet {part : Weaving α} {next : α → Weaving β} {entry : PassLog}
    (h : Logs part entry) (hnext : ∀ answer, Logs (next answer) PassLog.empty) :
    Logs (part >>= next) entry := by
  rw [← PassLog.append_empty entry]
  exact h.bind hnext

end Weaving

namespace Compose

open Weaving

theorem written_logs {α : Type} (result : Except Failure α × Json) :
    Logs (written result) PassLog.empty := Logs.settleWith _

theorem putElement_logs (relation : Option Relation) (base : FieldPath) (document value : Json) :
    Logs (putElement relation base document value) PassLog.empty := by
  unfold putElement
  split
  · exact (written_logs _).quiet_bind fun _ ↦ Logs.pure _
  · dsimp only
    split
    · exact (written_logs _).quiet_bind fun _ ↦ Logs.pure _
    · exact (written_logs _).quiet_bind fun _ ↦ Logs.pure _

theorem putLiteral_logs (base path : FieldPath) (value : Option Json) (isItem : Bool)
    (document : Json) : Logs (putLiteral base path value isItem document) PassLog.empty := by
  unfold putLiteral
  dsimp only
  split
  · exact (written_logs _).quiet_bind fun _ ↦ Logs.pure _
  · split
    · exact (written_logs _).quiet_bind fun _ ↦ Logs.pure _
    · exact Logs.pure _

/-- A read logs its handle, when there is no value, before what follows. -/
theorem read_logs {α : Type} {part : Weaving α} {entry : PassLog} (supplies : Supplies)
    (handle : Handle) (h : Logs part entry) :
    Logs (if (supplies.value? handle).isNone then do
          note fun log ↦ log.addPending handle
          part
        else part)
      ((if (supplies.value? handle).isNone then PassLog.lacking handle
        else PassLog.empty).append entry) := by
  split
  · exact (Logs.note fun log ↦ log.addPending_eq_append handle).bind fun _ ↦ h
  · rw [PassLog.empty_append]
    exact h

variable {context : Context}

mutual

theorem weave_logs (enclosing : List TypeName) (base : FieldPath) (document : Json) :
    ∀ node : Node,
      Logs (weave context enclosing base document node) (node.logged context.supplies)
  | .fragment children => by
    rw [weave, Node.logged]
    exact weaveAll_logs enclosing base document children
  | .element type props tag children => by
    rw [weave, Node.logged]
    refine (Logs.settleWith _).quiet_bind fun relation ↦ ?_
    refine (Logs.settleWith _).quiet_bind fun fields ↦ ?_
    exact (weaveAll_logs _ _ _ children).bind_quiet fun value ↦ putElement_logs _ _ _ _
  | .literal path value isItem children => by
    rw [weave, Node.logged]
    apply (putLiteral_logs _ _ _ _ _).quiet_bind
    rintro ⟨inner, document⟩
    exact weaveAll_logs enclosing inner document children
  | .transform rewrite children => by
    rw [weave, Node.logged]
    refine (weaveAll_logs _ _ _ children).bind_quiet fun scratch ↦ ?_
    exact (written_logs _).quiet_bind fun _ ↦ Logs.pure _
  | .component name script => by
    rw [weave, Node.logged]
    refine (Logs.note fun log ↦ log.addRendered_eq_append name).bind fun _ ↦ ?_
    exact weaveScript_logs name enclosing base document script

theorem weaveAll_logs (enclosing : List TypeName) (base : FieldPath) (document : Json) :
    ∀ nodes : List Node, Logs (weaveAll context enclosing base document nodes)
      (Node.allLogged context.supplies nodes)
  | [] => Logs.pure document
  | node :: rest => by
    rw [weaveAll, Node.allLogged]
    refine (weave_logs enclosing base document node).bind fun document ↦ ?_
    exact weaveAll_logs enclosing base document rest

theorem weaveScript_logs (owner : String) (enclosing : List TypeName) (base : FieldPath)
    (document : Json) : ∀ script : Script,
      Logs (weaveScript context owner enclosing base document script)
        (script.logged context.supplies owner)
  | .yield node => by
    rw [weaveScript, Script.logged]
    exact weave_logs enclosing base document node
  | .suspend => by
    rw [weaveScript, Script.logged]
    exact (Logs.note PassLog.addSuspended_eq_append).bind_quiet fun _ ↦ Logs.pure document
  | .read handle next => by
    rw [weaveScript, Script.logged]
    exact read_logs context.supplies handle
      (weaveScript_logs owner enclosing base document (next (context.supplies.value? handle)))
  | .require message check next => by
    rw [weaveScript, Script.logged]
    refine (Logs.note fun log ↦ log.addRequirement_eq_append _).bind fun _ ↦ ?_
    exact weaveScript_logs owner enclosing base document next

end

theorem documentOf_logs (node : Node) :
    Logs (documentOf context node) (node.logged context.supplies) := by
  unfold documentOf
  refine (weave_logs _ _ _ node).bind_quiet fun document ↦ ?_
  split <;> exact Logs.pure _

theorem single_logs (node : Node) :
    Logs (do pure [← documentOf context node]) (node.logged context.supplies) :=
  (documentOf_logs node).bind_quiet fun _ ↦ Logs.pure _

mutual

theorem collect_logs : ∀ node : Node,
    Logs (collect context node) (node.logged context.supplies)
  | .fragment children => by
    rw [collect, Node.logged]
    exact collectAll_logs children
  | .component name script => by
    rw [collect, Node.logged]
    refine (Logs.note fun log ↦ log.addRendered_eq_append name).bind fun _ ↦ ?_
    exact collectScript_logs name script
  | .element type props tag children => by
    rw [collect]
    exact single_logs (.element type props tag children)
  | .literal path value isItem children => by
    rw [collect]
    exact single_logs (.literal path value isItem children)
  | .transform rewrite children => by
    rw [collect]
    exact single_logs (.transform rewrite children)

theorem collectAll_logs : ∀ nodes : List Node,
    Logs (collectAll context nodes) (Node.allLogged context.supplies nodes)
  | [] => Logs.pure []
  | node :: rest => by
    rw [collectAll, Node.allLogged]
    refine (collect_logs node).bind fun front ↦ ?_
    exact (collectAll_logs rest).bind_quiet fun back ↦ Logs.pure _

theorem collectScript_logs (owner : String) : ∀ script : Script,
    Logs (collectScript context owner script) (script.logged context.supplies owner)
  | .yield node => by
    rw [collectScript, Script.logged]
    exact collect_logs node
  | .suspend => by
    rw [collectScript, Script.logged]
    exact (Logs.note PassLog.addSuspended_eq_append).bind_quiet fun _ ↦ Logs.pure []
  | .read handle next => by
    rw [collectScript, Script.logged]
    exact read_logs context.supplies handle
      (collectScript_logs owner (next (context.supplies.value? handle)))
  | .require message check next => by
    rw [collectScript, Script.logged]
    refine (Logs.note fun log ↦ log.addRequirement_eq_append _).bind fun _ ↦ ?_
    exact collectScript_logs owner next

end

/-- A pass that comes to its end has the log of its tree. -/
theorem pass_logged {tree : Node} {documents : List Json} {log : PassLog}
    (h : pass context tree = (.ok documents, log)) : log = tree.logged context.supplies := by
  rw [collect_logs tree PassLog.empty documents log h, PassLog.empty_append]

end Compose
end ManifestTree
