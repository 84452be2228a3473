import ManifestTree.Proofs.Association
import ManifestTree.Proofs.RunSteps
import ManifestTree.Proofs.Weaving

/-!
# The order in which deferred values arrive

A component that gives up whenever a value it reads is missing cannot tell an early pass from a late
one otherwise than by giving up. So a pass in which no component gave up is the pass that the final
values would have given, and the documents of a run do not depend on when its values arrived. The
argument is one comparison of two passes of the same tree, part by part, and an induction over the
batches of a run that keeps every value given so far equal to the assigned one.
-/

namespace ManifestTree

/-! ## Components that stop at a missing value -/

/-- Under these supplies the script ends by giving up. -/
def Script.GivesUp (supplies : Supplies) : Script → Prop
  | .yield _ => False
  | .suspend => True
  | .read handle next => (next (supplies.value? handle)).GivesUp supplies
  | .require _ _ next => next.GivesUp supplies

mutual

/-- Under these supplies every component of the tree gives up when a value it reads is missing. -/
def Node.Strict (supplies : Supplies) : Node → Prop
  | .fragment children => Node.AllStrict supplies children
  | .element _ _ _ children => Node.AllStrict supplies children
  | .literal _ _ _ children => Node.AllStrict supplies children
  | .transform _ children => Node.AllStrict supplies children
  | .component _ script => Script.Strict supplies script

def Node.AllStrict (supplies : Supplies) : List Node → Prop
  | [] => True
  | node :: rest => Node.Strict supplies node ∧ Node.AllStrict supplies rest

/-- A missing value makes the script give up, and the tree it yields is strict. -/
def Script.Strict (supplies : Supplies) : Script → Prop
  | .yield node => Node.Strict supplies node
  | .suspend => True
  | .read handle next =>
    (supplies.value? handle = none → (next none).GivesUp supplies) ∧
      Script.Strict supplies (next (supplies.value? handle))
  | .require _ _ next => Script.Strict supplies next

end

/-- Every value given in the first supplies is the same in the second ones. -/
def Supplies.Earlier (early late : Supplies) : Prop :=
  ∀ handle value, early.value? handle = some value → late.value? handle = some value

/-! ## Parts that differ only by giving up -/

namespace Weaving

variable {α β : Type}

/-- The first part never takes back that a component gave up, and where none does the second part
goes exactly the same way. -/
structure Anticipates (early late : Weaving α) : Prop where
  grows : ∀ log, log.suspended ≤ (exec early log).2.suspended
  agrees : ∀ log, (exec early log).2.suspended = log.suspended → exec late log = exec early log

theorem Anticipates.settleWith (outcome : Except Failure α) :
    Anticipates (Compose.settleWith outcome) (Compose.settleWith outcome) where
  grows := by simp
  agrees := fun _ _ ↦ rfl

theorem Anticipates.pure (answer : α) :
    Anticipates (Pure.pure answer : Weaving α) (Pure.pure answer) where
  grows := by simp
  agrees := fun _ _ ↦ rfl

theorem Anticipates.note {change : PassLog → PassLog}
    (h : ∀ log, log.suspended ≤ (change log).suspended) :
    Anticipates (Compose.note change) (Compose.note change) where
  grows := by simpa using h
  agrees := fun _ _ ↦ rfl

/-- A part in which some component surely gives up anticipates every other part. -/
theorem Anticipates.of_lt {early late : Weaving α}
    (h : ∀ log, log.suspended < (exec early log).2.suspended) : Anticipates early late where
  grows := fun log ↦ Nat.le_of_lt (h log)
  agrees := fun log heq ↦ absurd heq (Nat.ne_of_gt (h log))

theorem Anticipates.addRendered (name : String) :
    Anticipates (Compose.note fun log ↦ log.addRendered name)
      (Compose.note fun log ↦ log.addRendered name) := by
  apply Anticipates.note
  exact fun log ↦ Nat.le_refl log.suspended

theorem Anticipates.addRequirement (requirement : Requirement) :
    Anticipates (Compose.note fun log ↦ log.addRequirement requirement)
      (Compose.note fun log ↦ log.addRequirement requirement) := by
  apply Anticipates.note
  exact fun log ↦ Nat.le_refl log.suspended

theorem Anticipates.giveUp (answer : α) :
    Anticipates (do Compose.note PassLog.addSuspended; Pure.pure answer)
      (do Compose.note PassLog.addSuspended; Pure.pure answer) := by
  apply Anticipates.of_lt
  exact fun log ↦ Nat.lt_succ_self log.suspended

/-- If the whole sequence leaves the count alone, so does each of its two parts. -/
theorem Anticipates.bind {early late : Weaving α} {next after : α → Weaving β}
    (h : Anticipates early late) (hnext : ∀ answer, Anticipates (next answer) (after answer)) :
    Anticipates (early >>= next) (late >>= after) where
  grows := by
    intro log
    rcases hexec : exec early log with ⟨failure | answer, middle⟩
    · rw [exec_bind_of_error hexec]
      simpa [hexec] using h.grows log
    · rw [exec_bind_of_ok hexec]
      have hfirst := h.grows log
      rw [hexec] at hfirst
      exact Nat.le_trans hfirst ((hnext answer).grows middle)
  agrees := by
    intro log hlog
    rcases hexec : exec early log with ⟨failure | answer, middle⟩
    · rw [exec_bind_of_error hexec] at hlog
      have hlate := h.agrees log (by rw [hexec]; exact hlog)
      rw [exec_bind_of_error hexec, exec_bind_of_error (hlate.trans hexec)]
    · rw [exec_bind_of_ok hexec] at hlog
      have hfirst := h.grows log
      rw [hexec] at hfirst
      have hsecond := (hnext answer).grows middle
      have hmiddle : middle.suspended = log.suspended :=
        Nat.le_antisymm (hlog ▸ hsecond) hfirst
      have hlate := h.agrees log (by rw [hexec]; exact hmiddle)
      rw [exec_bind_of_ok hexec, exec_bind_of_ok (hlate.trans hexec)]
      exact (hnext answer).agrees middle (hlog.trans hmiddle.symm)

end Weaving

namespace Compose

open Weaving

variable {schema : Schema} {marker : String} {early late : Supplies}

theorem written_anticipates {α : Type} (result : Except Failure α × Json) :
    Anticipates (written result) (written result) := Anticipates.settleWith _

theorem putElement_anticipates (relation : Option Relation) (base : FieldPath)
    (document value : Json) :
    Anticipates (putElement relation base document value)
      (putElement relation base document value) := by
  unfold putElement
  split
  · exact (written_anticipates _).bind fun _ ↦ Anticipates.pure _
  · dsimp only
    split
    · exact (written_anticipates _).bind fun _ ↦ Anticipates.pure _
    · exact (written_anticipates _).bind fun _ ↦ Anticipates.pure _

theorem putLiteral_anticipates (base path : FieldPath) (value : Option Json) (isItem : Bool)
    (document : Json) :
    Anticipates (putLiteral base path value isItem document)
      (putLiteral base path value isItem document) := by
  unfold putLiteral
  dsimp only
  split
  · exact (written_anticipates _).bind fun _ ↦ Anticipates.pure _
  · split
    · exact (written_anticipates _).bind fun _ ↦ Anticipates.pure _
    · exact Anticipates.pure _

/-- A script that gives up leaves the document alone and is counted, whatever it reads and requires
before. -/
theorem exec_weaveScript_of_givesUp (context : Context) (owner : String)
    (enclosing : List TypeName) (base : FieldPath) (document : Json) : ∀ script : Script,
    script.GivesUp context.supplies → ∀ log : PassLog, ∃ after,
      exec (weaveScript context owner enclosing base document script) log = (.ok document, after) ∧
        log.suspended < after.suspended
  | .yield _, h, _ => h.elim
  | .suspend, _, log => ⟨log.addSuspended, rfl, Nat.lt_succ_self log.suspended⟩
  | .read handle next, h, log => by
    have ih := exec_weaveScript_of_givesUp context owner enclosing base document
      (next (context.supplies.value? handle)) h
    cases hvalue : context.supplies.value? handle with
    | none =>
      rw [hvalue] at ih
      rw [weaveScript_read_of_none hvalue]
      exact ih (log.addPending handle)
    | some value =>
      rw [hvalue] at ih
      rw [weaveScript_read_of_some hvalue]
      exact ih log
  | .require message check next, h, log => by
    rw [weaveScript]
    exact exec_weaveScript_of_givesUp context owner enclosing base document next h
      (log.addRequirement ⟨owner, message, check⟩)

/-- A script that gives up at the top of a tree yields no document and is counted as well. -/
theorem exec_collectScript_of_givesUp (context : Context) (owner : String) : ∀ script : Script,
    script.GivesUp context.supplies → ∀ log : PassLog, ∃ after,
      exec (collectScript context owner script) log = (.ok [], after) ∧
        log.suspended < after.suspended
  | .yield _, h, _ => h.elim
  | .suspend, _, log => ⟨log.addSuspended, rfl, Nat.lt_succ_self log.suspended⟩
  | .read handle next, h, log => by
    have ih := exec_collectScript_of_givesUp context owner
      (next (context.supplies.value? handle)) h
    cases hvalue : context.supplies.value? handle with
    | none =>
      rw [hvalue] at ih
      rw [collectScript_read_of_none hvalue]
      exact ih (log.addPending handle)
    | some value =>
      rw [hvalue] at ih
      rw [collectScript_read_of_some hvalue]
      exact ih log
  | .require message check next, h, log => by
    rw [collectScript]
    exact exec_collectScript_of_givesUp context owner next h
      (log.addRequirement ⟨owner, message, check⟩)

theorem weaveScript_givesUp (context : Context) (owner : String) (enclosing : List TypeName)
    (base : FieldPath) (document : Json) {script : Script} (h : script.GivesUp context.supplies)
    (log : PassLog) : log.suspended <
      (exec (weaveScript context owner enclosing base document script) log).2.suspended := by
  obtain ⟨after, hexec, hcounted⟩ :=
    exec_weaveScript_of_givesUp context owner enclosing base document script h log
  rw [hexec]
  exact hcounted

theorem collectScript_givesUp (context : Context) (owner : String) {script : Script}
    (h : script.GivesUp context.supplies) (log : PassLog) :
    log.suspended < (exec (collectScript context owner script) log).2.suspended := by
  obtain ⟨after, hexec, hcounted⟩ := exec_collectScript_of_givesUp context owner script h log
  rw [hexec]
  exact hcounted

theorem givesUp_of_missing {script : Option Json → Script} {handle : Handle}
    (hvalue : early.value? handle = none) (h : (script none).GivesUp early) :
    (Script.read handle script).GivesUp early := by
  rw [Script.GivesUp, hvalue]
  exact h

mutual

theorem weave_anticipates (h : Supplies.Earlier early late) (enclosing : List TypeName)
    (base : FieldPath) (document : Json) : ∀ node : Node, node.Strict early →
    Anticipates (weave ⟨schema, marker, early⟩ enclosing base document node)
      (weave ⟨schema, marker, late⟩ enclosing base document node)
  | .fragment children, hstrict => by
    rw [weave, weave]
    exact weaveAll_anticipates h enclosing base document children hstrict
  | .element type props tag children, hstrict => by
    rw [weave, weave]
    refine (Anticipates.settleWith _).bind fun relation ↦ ?_
    refine (Anticipates.settleWith _).bind fun fields ↦ ?_
    refine Anticipates.bind ?_ fun value ↦ putElement_anticipates _ _ _ _
    exact weaveAll_anticipates h _ _ _ children hstrict
  | .literal path value isItem children, hstrict => by
    rw [weave, weave]
    apply (putLiteral_anticipates _ _ _ _ _).bind
    rintro ⟨inner, document⟩
    exact weaveAll_anticipates h enclosing inner document children hstrict
  | .transform rewrite children, hstrict => by
    rw [weave, weave]
    refine Anticipates.bind ?_ fun scratch ↦
      (written_anticipates _).bind fun _ ↦ Anticipates.pure _
    exact weaveAll_anticipates h _ _ _ children hstrict
  | .component name script, hstrict => by
    rw [weave, weave]
    refine (Anticipates.addRendered name).bind fun _ ↦ ?_
    exact weaveScript_anticipates h name enclosing base document script hstrict

theorem weaveAll_anticipates (h : Supplies.Earlier early late) (enclosing : List TypeName)
    (base : FieldPath) (document : Json) : ∀ nodes : List Node, Node.AllStrict early nodes →
    Anticipates (weaveAll ⟨schema, marker, early⟩ enclosing base document nodes)
      (weaveAll ⟨schema, marker, late⟩ enclosing base document nodes)
  | [], _ => Anticipates.pure document
  | node :: rest, hstrict => by
    rw [weaveAll, weaveAll]
    refine (weave_anticipates h enclosing base document node hstrict.1).bind fun document ↦ ?_
    exact weaveAll_anticipates h enclosing base document rest hstrict.2

theorem weaveScript_anticipates (h : Supplies.Earlier early late) (owner : String)
    (enclosing : List TypeName) (base : FieldPath) (document : Json) :
    ∀ script : Script, script.Strict early →
    Anticipates (weaveScript ⟨schema, marker, early⟩ owner enclosing base document script)
      (weaveScript ⟨schema, marker, late⟩ owner enclosing base document script)
  | .yield node, hstrict => weave_anticipates h enclosing base document node hstrict
  | .suspend, _ => by
    rw [weaveScript, weaveScript]
    exact Anticipates.giveUp document
  | .read handle next, hstrict => by
    cases hvalue : early.value? handle with
    | none =>
      apply Anticipates.of_lt
      exact weaveScript_givesUp ⟨schema, marker, early⟩ owner enclosing base document
        (givesUp_of_missing hvalue (hstrict.1 hvalue))
    | some value =>
      have ih := weaveScript_anticipates h owner enclosing base document
        (next (early.value? handle)) hstrict.2
      have hearly : (Context.mk schema marker early).supplies.value? handle = some value := hvalue
      have hlate : (Context.mk schema marker late).supplies.value? handle = some value :=
        h handle value hvalue
      rw [hvalue] at ih
      rw [weaveScript_read_of_some hearly, weaveScript_read_of_some hlate]
      exact ih
  | .require message check next, hstrict => by
    rw [weaveScript, weaveScript]
    refine (Anticipates.addRequirement ⟨owner, message, check⟩).bind fun _ ↦ ?_
    exact weaveScript_anticipates h owner enclosing base document next hstrict

end

theorem documentOf_anticipates (h : Supplies.Earlier early late) (node : Node)
    (hstrict : node.Strict early) :
    Anticipates (documentOf ⟨schema, marker, early⟩ node)
      (documentOf ⟨schema, marker, late⟩ node) := by
  unfold documentOf
  refine (weave_anticipates h _ _ _ node hstrict).bind fun document ↦ ?_
  split <;> exact Anticipates.pure _

theorem single_anticipates (h : Supplies.Earlier early late) (node : Node)
    (hstrict : node.Strict early) :
    Anticipates (do pure [← documentOf ⟨schema, marker, early⟩ node])
      (do pure [← documentOf ⟨schema, marker, late⟩ node]) :=
  (documentOf_anticipates h node hstrict).bind fun _ ↦ Anticipates.pure _

mutual

theorem collect_anticipates (h : Supplies.Earlier early late) : ∀ node : Node,
    node.Strict early → Anticipates (collect ⟨schema, marker, early⟩ node)
      (collect ⟨schema, marker, late⟩ node)
  | .fragment children, hstrict => by
    rw [collect, collect]
    exact collectAll_anticipates h children hstrict
  | .component name script, hstrict => by
    rw [collect, collect]
    refine (Anticipates.addRendered name).bind fun _ ↦ ?_
    exact collectScript_anticipates h name script hstrict
  | .element type props tag children, hstrict => by
    rw [collect, collect]
    exact single_anticipates h (.element type props tag children) hstrict
  | .literal path value isItem children, hstrict => by
    rw [collect, collect]
    exact single_anticipates h (.literal path value isItem children) hstrict
  | .transform rewrite children, hstrict => by
    rw [collect, collect]
    exact single_anticipates h (.transform rewrite children) hstrict

theorem collectAll_anticipates (h : Supplies.Earlier early late) : ∀ nodes : List Node,
    Node.AllStrict early nodes → Anticipates (collectAll ⟨schema, marker, early⟩ nodes)
      (collectAll ⟨schema, marker, late⟩ nodes)
  | [], _ => Anticipates.pure []
  | node :: rest, hstrict => by
    rw [collectAll, collectAll]
    refine (collect_anticipates h node hstrict.1).bind fun front ↦ ?_
    refine (collectAll_anticipates h rest hstrict.2).bind fun back ↦ ?_
    exact Anticipates.pure _

theorem collectScript_anticipates (h : Supplies.Earlier early late) (owner : String) :
    ∀ script : Script, script.Strict early →
    Anticipates (collectScript ⟨schema, marker, early⟩ owner script)
      (collectScript ⟨schema, marker, late⟩ owner script)
  | .yield node, hstrict => collect_anticipates h node hstrict
  | .suspend, _ => by
    rw [collectScript, collectScript]
    exact Anticipates.giveUp []
  | .read handle next, hstrict => by
    cases hvalue : early.value? handle with
    | none =>
      apply Anticipates.of_lt
      exact collectScript_givesUp ⟨schema, marker, early⟩ owner
        (givesUp_of_missing hvalue (hstrict.1 hvalue))
    | some value =>
      have ih := collectScript_anticipates h owner (next (early.value? handle)) hstrict.2
      have hearly : (Context.mk schema marker early).supplies.value? handle = some value := hvalue
      have hlate : (Context.mk schema marker late).supplies.value? handle = some value :=
        h handle value hvalue
      rw [hvalue] at ih
      rw [collectScript_read_of_some hearly, collectScript_read_of_some hlate]
      exact ih
  | .require message check next, hstrict => by
    rw [collectScript, collectScript]
    refine (Anticipates.addRequirement ⟨owner, message, check⟩).bind fun _ ↦ ?_
    exact collectScript_anticipates h owner next hstrict

end

/-- A settled pass is the pass that later supplies would have given. -/
theorem pass_eq_of_isSettled (h : Supplies.Earlier early late) {tree : Node}
    (hstrict : tree.Strict early) (hsettled : isSettled (pass ⟨schema, marker, early⟩ tree).2) :
    pass ⟨schema, marker, late⟩ tree = pass ⟨schema, marker, early⟩ tree := by
  apply (collect_anticipates h tree hstrict).agrees PassLog.empty
  exact beq_iff_eq.mp hsettled

end Compose
/-! ## Supplies during a run -/

/-- An action that gives nothing but the assigned value of its handle. -/
def SupplyAction.Follows (assignment : Handle → Json) : SupplyAction → Prop
  | .give handle value => value = assignment handle
  | .withdraw _ => True

namespace Supplies

def Follows (assignment : Handle → Json) (supplies : Supplies) : Prop :=
  ∀ handle value, supplies.value? handle = some value → value = assignment handle

/-- Every handle of the first supplies holds its assigned value in the second ones. -/
def FilledBy (assignment : Handle → Json) (supplies full : Supplies) : Prop :=
  ∀ handle, (supplies.get? handle).isSome → full.value? handle = some (assignment handle)

theorem value?_insert (supplies : Supplies) (handle other : Handle) (supply : Supply) :
    value? (supplies.insert handle supply) other =
      if handle = other then supply.value else supplies.value? other := by
  unfold value?
  rw [Association.get?_insert]
  by_cases h : handle = other
  · rw [if_pos h, if_pos h]
  · rw [if_neg h, if_neg h]

theorem isSome_get?_of_isOpen {supplies : Supplies} {handle : Handle}
    (h : supplies.isOpen handle) : (supplies.get? handle).isSome := by
  unfold isOpen at h
  cases hget : supplies.get? handle with
  | none => simp [hget] at h
  | some supply => rfl

theorem isSome_get?_of_value? {supplies : Supplies} {handle : Handle} {value : Json}
    (h : supplies.value? handle = some value) : (supplies.get? handle).isSome := by
  unfold value? at h
  cases hget : supplies.get? handle with
  | none => simp [hget] at h
  | some supply => rfl

theorem isSome_get?_insert_of_isOpen {supplies : Supplies} {handle : Handle}
    (hopen : supplies.isOpen handle) (supply : Supply) (other : Handle) :
    (Association.get? other (supplies.insert handle supply)).isSome =
      (supplies.get? other).isSome := by
  rw [Association.get?_insert]
  split
  · next heq =>
    subst heq
    exact (isSome_get?_of_isOpen hopen).symm
  · rfl

/-- Actions reach known handles only. -/
theorem isSome_get?_apply (supplies : Supplies) (action : SupplyAction) (handle : Handle) :
    ((supplies.apply action).2.get? handle).isSome = (supplies.get? handle).isSome := by
  cases action with
  | give other value =>
    rw [apply]
    split
    · next hopen => exact isSome_get?_insert_of_isOpen hopen _ handle
    · rfl
  | withdraw other =>
    rw [apply]
    split
    · next hopen => exact isSome_get?_insert_of_isOpen hopen _ handle
    · rfl

theorem Follows.apply {assignment : Handle → Json} {supplies : Supplies} {action : SupplyAction}
    (h : supplies.Follows assignment) (haction : action.Follows assignment) :
    (supplies.apply action).2.Follows assignment := by
  intro handle value hvalue
  cases action with
  | give other given =>
    rw [Supplies.apply] at hvalue
    split at hvalue
    · rw [value?_insert] at hvalue
      split at hvalue
      · next heq =>
        subst heq
        cases hvalue
        exact haction
      · exact h handle value hvalue
    · exact h handle value hvalue
  | withdraw other =>
    rw [Supplies.apply] at hvalue
    split at hvalue
    · rw [value?_insert] at hvalue
      split at hvalue
      · next heq =>
        subst heq
        exact h other value hvalue
      · exact h handle value hvalue
    · exact h handle value hvalue

theorem isSome_get?_applyAll (supplies : Supplies) (batch : List SupplyAction)
    (handle : Handle) :
    ((supplies.applyAll batch).2.get? handle).isSome = (supplies.get? handle).isSome := by
  induction batch generalizing supplies with
  | nil => rfl
  | cons action rest ih =>
    exact (ih (supplies.apply action).2).trans (isSome_get?_apply supplies action handle)

theorem Follows.applyAll {assignment : Handle → Json} {supplies : Supplies}
    {batch : List SupplyAction} (h : supplies.Follows assignment)
    (hbatch : ∀ action ∈ batch, action.Follows assignment) :
    (supplies.applyAll batch).2.Follows assignment := by
  induction batch generalizing supplies with
  | nil => exact h
  | cons action rest ih =>
    have hhead := h.apply (hbatch action List.mem_cons_self)
    exact ih hhead fun other hmem ↦ hbatch other (List.mem_cons_of_mem action hmem)

theorem FilledBy.applyAll {assignment : Handle → Json} {supplies full : Supplies}
    (h : supplies.FilledBy assignment full) (batch : List SupplyAction) :
    (supplies.applyAll batch).2.FilledBy assignment full := by
  intro handle hsome
  rw [isSome_get?_applyAll] at hsome
  exact h handle hsome

theorem earlier_of_follows {assignment : Handle → Json} {supplies full : Supplies}
    (h : supplies.Follows assignment) (hfull : supplies.FilledBy assignment full) :
    supplies.Earlier full := by
  intro handle value hvalue
  rw [hfull handle (isSome_get?_of_value? hvalue), ← h handle value hvalue]

end Supplies

/-! ## Whole runs -/

namespace Settle

variable {schema : Schema} {marker : String} {tree : Node} {assignment : Handle → Json}
  {full : Supplies}

/-- The documents of a settled pass under the given supplies. -/
def SettledWith (schema : Schema) (marker : String) (tree : Node) (supplies : Supplies)
    (documents : List Json) : Prop :=
  (Compose.pass ⟨schema, marker, supplies⟩ tree).1 = .ok documents ∧
    Compose.isSettled (Compose.pass ⟨schema, marker, supplies⟩ tree).2

theorem finalize_eq_ok {supplies : Supplies} {composed documents : List Json} {log : PassLog}
    (h : Compose.finalize supplies composed log = .ok documents) : composed = documents := by
  rw [Compose.finalize_eq] at h
  split at h
  · cases h
  · split at h
    · cases h
    · exact Except.ok.inj h

theorem await_ne_documents (supplies : Supplies) (handle : Handle) (rest : List Handle)
    (documents : List Json) : await supplies handle rest ≠ .finished (.documents documents) := by
  unfold await
  split <;> simp

/-- A pass that ends the run with documents has settled with them. -/
theorem afterPass_eq_documents {supplies : Supplies} {result : Except Failure (List Json)}
    {log : PassLog} {documents : List Json}
    (h : afterPass supplies result log = .finished (.documents documents)) :
    result = .ok documents ∧ Compose.isSettled log := by
  cases result with
  | error failure =>
    rw [afterPass_error] at h
    cases h
  | ok composed =>
    rw [afterPass_ok] at h
    split at h
    · next hsettled =>
      cases hfinal : Compose.finalize supplies composed log with
      | error failure => simp [hfinal, Outcome.ofExcept] at h
      | ok final =>
        rw [hfinal] at h
        cases h
        exact ⟨congrArg Except.ok (finalize_eq_ok hfinal), hsettled⟩
    · split at h
      · cases h
      · exact absurd h (await_ne_documents _ _ _ _)

/-- A phase that is over with documents has those of a pass under the final values. -/
def Phase.EndsAs (schema : Schema) (marker : String) (tree : Node) (full : Supplies)
    (phase : Phase) : Prop :=
  ∀ documents, phase = .finished (.documents documents) →
    SettledWith schema marker tree full documents

theorem attempt_endsAs {supplies : Supplies} (hstrict : ∀ supplies, tree.Strict supplies)
    (h : supplies.Earlier full) :
    (attempt schema marker tree supplies).2.EndsAs schema marker tree full := by
  intro documents hphase
  obtain ⟨hresult, hsettled⟩ := afterPass_eq_documents hphase
  have hpass := Compose.pass_eq_of_isSettled h (hstrict supplies) hsettled
  unfold SettledWith
  rw [hpass]
  exact ⟨hresult, hsettled⟩

theorem resume_endsAs {supplies : Supplies} (hstrict : ∀ supplies, tree.Strict supplies)
    (h : supplies.Earlier full) (pending : List Handle) :
    (resume schema marker tree supplies pending).2.EndsAs schema marker tree full := by
  cases hunready : supplies.unready pending with
  | cons handle rest =>
    rw [resume_of_unready hunready]
    intro documents hphase
    exact absurd hphase (await_ne_documents _ _ _ _)
  | nil =>
    rw [resume_of_ready hunready]
    exact attempt_endsAs hstrict h

/-- Whatever the batches do, documents come from a pass under values that were all final. -/
theorem proceed_eq_documents {supplies : Supplies} {phase : Phase}
    {batches : List (List SupplyAction)} {documents : List Json}
    (hstrict : ∀ supplies, tree.Strict supplies) (hfollows : supplies.Follows assignment)
    (hfull : supplies.FilledBy assignment full)
    (hbatches : ∀ batch ∈ batches, ∀ action ∈ batch, action.Follows assignment)
    (hphase : phase.EndsAs schema marker tree full)
    (h : (proceed schema marker (fun _ ↦ tree) supplies phase batches).outcome =
      .documents documents) :
    SettledWith schema marker tree full documents := by
  induction batches generalizing supplies phase with
  | nil =>
    cases phase with
    | finished outcome => exact hphase documents (congrArg Phase.finished h)
    | blocked pending => cases h
  | cons batch rest ih =>
    cases phase with
    | finished outcome => exact hphase documents (congrArg Phase.finished h)
    | blocked pending =>
      have hnext := hfollows.applyAll (hbatches batch List.mem_cons_self)
      have hfilled := hfull.applyAll batch
      refine ih hnext hfilled (fun other hmem ↦ hbatches other (List.mem_cons_of_mem _ hmem))
        ?_ h
      exact resume_endsAs hstrict (Supplies.earlier_of_follows hnext hfilled) pending

theorem runBatches_eq_documents {supplies : Supplies} {batches : List (List SupplyAction)}
    {documents : List Json} (hstrict : ∀ supplies, tree.Strict supplies)
    (hfollows : supplies.Follows assignment) (hfull : supplies.FilledBy assignment full)
    (hbatches : ∀ batch ∈ batches, ∀ action ∈ batch, action.Follows assignment)
    (h : (runBatches schema marker tree supplies batches).outcome = .documents documents) :
    SettledWith schema marker tree full documents := by
  refine proceed_eq_documents hstrict hfollows hfull hbatches ?_ h
  exact attempt_endsAs hstrict (Supplies.earlier_of_follows hfollows hfull)

/-- Two runs of one tree that end with documents end with the same ones: those of the single pass
in which every handle holds its assigned value from the start. -/
theorem documents_eq_of_arrivals {first second : Supplies}
    {firstBatches secondBatches : List (List SupplyAction)} {documents others : List Json}
    (hstrict : ∀ supplies, tree.Strict supplies)
    (hfirst : first.Follows assignment) (hsecond : second.Follows assignment)
    (hfirstFull : first.FilledBy assignment full) (hsecondFull : second.FilledBy assignment full)
    (hfirstBatches : ∀ batch ∈ firstBatches, ∀ action ∈ batch, action.Follows assignment)
    (hsecondBatches : ∀ batch ∈ secondBatches, ∀ action ∈ batch, action.Follows assignment)
    (hrun : (runBatches schema marker tree first firstBatches).outcome = .documents documents)
    (hother : (runBatches schema marker tree second secondBatches).outcome = .documents others) :
    documents = others ∧
      (Compose.pass ⟨schema, marker, full⟩ tree).1 = .ok documents ∧
      Compose.isSettled (Compose.pass ⟨schema, marker, full⟩ tree).2 := by
  have hdocuments := runBatches_eq_documents hstrict hfirst hfirstFull hfirstBatches hrun
  have hothers := runBatches_eq_documents hstrict hsecond hsecondFull hsecondBatches hother
  refine ⟨?_, hdocuments⟩
  exact Except.ok.inj (hdocuments.1.symm.trans hothers.1)

/-- A component that reads two values: they arrive one by one in the first run, and together in the
other order in the second. -/
theorem documents_eq_of_arrivals_two_handles :
    let image : Handle := ⟨"image", "image"⟩
    let host : Handle := ⟨"host", "host"⟩
    let assignment : Handle → Json := fun handle ↦ .string handle.id
    let tree : Node := .fragment [.component "web" (.await image fun x ↦ .await host fun y ↦
      .yield (.element ⟨"Pod"⟩ [("image", x), ("host", y)] none []))]
    let supplies : Supplies := [(image, ⟨none, true⟩), (host, ⟨none, true⟩)]
    let full : Supplies := [(image, ⟨some (.string "image"), true⟩),
      (host, ⟨some (.string "host"), true⟩)]
    let giveImage : SupplyAction := .give image (.string "image")
    let giveHost : SupplyAction := .give host (.string "host")
    let documents : List Json :=
      [.object [("image", .string "image"), ("host", .string "host")]]
    (∀ supplies, tree.Strict supplies) ∧ supplies.Follows assignment ∧
      (runBatches default "@" tree supplies [[giveImage], [giveHost]]).outcome =
        .documents documents ∧
      (runBatches default "@" tree supplies [[giveHost, giveImage]]).outcome =
        .documents documents ∧
      (Compose.pass ⟨default, "@", full⟩ tree).1 = .ok documents := by
  intro image host assignment tree supplies full giveImage giveHost documents
  have hstrict (supplies : Supplies) : tree.Strict supplies := by
    have hawait (handle : Handle) (next : Json → Script)
        (hnext : ∀ value, (next value).Strict supplies) :
        (Script.await handle next).Strict supplies := by
      refine ⟨fun _ ↦ trivial, ?_⟩
      cases supplies.value? handle with
      | none => trivial
      | some value => exact hnext value
    exact ⟨hawait _ _ fun _ ↦ hawait _ _ fun _ ↦ trivial, trivial⟩
  have hfollows : supplies.Follows assignment := by
    intro handle value hvalue
    by_cases himage : image = handle
    · subst himage
      cases hvalue
    · by_cases hhost : host = handle
      · subst hhost
        cases hvalue
      · simp [supplies, Supplies.value?, Association.get?_cons_of_ne himage,
          Association.get?_cons_of_ne hhost] at hvalue
  have hfull : supplies.FilledBy assignment full := by
    intro handle hsome
    by_cases himage : image = handle
    · subst himage
      rfl
    · by_cases hhost : host = handle
      · subst hhost
        rfl
      · simp [supplies, Association.get?_cons_of_ne himage,
          Association.get?_cons_of_ne hhost] at hsome
  have hgiveImage : giveImage.Follows assignment := rfl
  have hgiveHost : giveHost.Follows assignment := rfl
  have hfirst : (runBatches default "@" tree supplies [[giveImage], [giveHost]]).outcome =
      .documents documents := rfl
  have hsecond : (runBatches default "@" tree supplies [[giveHost, giveImage]]).outcome =
      .documents documents := rfl
  obtain ⟨-, hpass, -⟩ := documents_eq_of_arrivals hstrict hfollows hfollows hfull hfull
    (by simp [hgiveImage, hgiveHost]) (by simp [hgiveImage, hgiveHost]) hfirst hsecond
  exact ⟨hstrict, hfollows, hfirst, hsecond, hpass⟩

end Settle
end ManifestTree
