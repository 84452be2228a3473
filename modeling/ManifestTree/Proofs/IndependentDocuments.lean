import ManifestTree.Proofs.PassLogs

/-!
# Documents of one tree are independent

A part of a pass never looks at the log. It does the same behind every log so far and puts its own
entries behind it, whether it answers or fails. Since every document starts out vacant and outside
every element, a pass over several nodes is a pass over the first ones followed by one over the
others. Only the log of a pass that fails is cut short, at the failure.
-/

namespace ManifestTree

/-! ## Parts that do not look at the log -/

namespace Weaving

variable {α β : Type}

/-- Behind every log the part does what it does behind the empty one. -/
def Continues (part : Weaving α) : Prop :=
  ∀ log, exec part log =
    ((exec part PassLog.empty).1, log.append (exec part PassLog.empty).2)

theorem Continues.pure (answer : α) : Continues (Pure.pure answer) := by
  intro log
  rw [exec_pure, exec_pure, PassLog.append_empty]

theorem Continues.settleWith (outcome : Except Failure α) :
    Continues (Compose.settleWith outcome) := by
  intro log
  rw [exec_settleWith, exec_settleWith, PassLog.append_empty]

theorem Continues.note {change : PassLog → PassLog} {entry : PassLog}
    (h : ∀ log, change log = log.append entry) : Continues (Compose.note change) := by
  intro log
  rw [exec_note, exec_note, h log, h PassLog.empty, PassLog.empty_append]

theorem Continues.bind {part : Weaving α} {next : α → Weaving β} (h : Continues part)
    (hnext : ∀ answer, Continues (next answer)) : Continues (part >>= next) := by
  intro log
  rw [exec_bind, exec_bind, h log]
  rcases exec part PassLog.empty with ⟨failure | answer, own⟩
  · rfl
  · dsimp only
    rw [hnext answer (log.append own), hnext answer own, PassLog.append_assoc]

theorem Continues.written (result : Except Failure α × Json) :
    Continues (Compose.written result) := Continues.settleWith _

end Weaving

namespace Compose

open Weaving

variable {context : Context}

theorem putElement_continues (relation : Option Relation) (base : FieldPath)
    (document value : Json) : Continues (putElement relation base document value) := by
  unfold putElement
  split
  · exact (Continues.written _).bind fun _ ↦ Continues.pure _
  · dsimp only
    split
    · exact (Continues.written _).bind fun _ ↦ Continues.pure _
    · exact (Continues.written _).bind fun _ ↦ Continues.pure _

theorem putLiteral_continues (base path : FieldPath) (value : Option Json) (isItem : Bool)
    (document : Json) : Continues (putLiteral base path value isItem document) := by
  unfold putLiteral
  dsimp only
  split
  · exact (Continues.written _).bind fun _ ↦ Continues.pure _
  · split
    · exact (Continues.written _).bind fun _ ↦ Continues.pure _
    · exact Continues.pure _

/-- A read comes before what follows it, with or without an entry of its own. -/
theorem read_continues {α : Type} {part : Weaving α} (h : Continues part) (lacks : Bool)
    (handle : Handle) :
    Continues (if lacks then do
        note fun log ↦ log.addPending handle
        part
      else part) := by
  split
  · exact (Continues.note fun log ↦ log.addPending_eq_append handle).bind fun _ ↦ h
  · exact h

mutual

theorem weave_continues (enclosing : List TypeName) (base : FieldPath) (document : Json) :
    ∀ node : Node, Continues (weave context enclosing base document node)
  | .fragment children => by
    rw [weave]
    exact weaveAll_continues enclosing base document children
  | .element type props tag children => by
    rw [weave]
    refine (Continues.settleWith _).bind fun relation ↦ ?_
    refine (Continues.settleWith _).bind fun fields ↦ ?_
    exact (weaveAll_continues _ _ _ children).bind fun value ↦ putElement_continues _ _ _ _
  | .literal path value isItem children => by
    rw [weave]
    refine (putLiteral_continues _ _ _ _ _).bind fun own ↦ ?_
    exact weaveAll_continues enclosing own.1 own.2 children
  | .transform rewrite children => by
    rw [weave]
    refine (weaveAll_continues _ _ _ children).bind fun scratch ↦ ?_
    exact (Continues.written _).bind fun _ ↦ Continues.pure _
  | .component name script => by
    rw [weave]
    refine (Continues.note fun log ↦ log.addRendered_eq_append name).bind fun _ ↦ ?_
    exact weaveScript_continues name enclosing base document script

theorem weaveAll_continues (enclosing : List TypeName) (base : FieldPath) (document : Json) :
    ∀ nodes : List Node, Continues (weaveAll context enclosing base document nodes)
  | [] => Continues.pure document
  | node :: rest => by
    rw [weaveAll]
    refine (weave_continues enclosing base document node).bind fun document ↦ ?_
    exact weaveAll_continues enclosing base document rest

theorem weaveScript_continues (owner : String) (enclosing : List TypeName) (base : FieldPath)
    (document : Json) : ∀ script : Script,
      Continues (weaveScript context owner enclosing base document script)
  | .yield node => by
    rw [weaveScript]
    exact weave_continues enclosing base document node
  | .suspend => by
    rw [weaveScript]
    exact (Continues.note PassLog.addSuspended_eq_append).bind fun _ ↦ Continues.pure document
  | .read handle next => by
    rw [weaveScript]
    exact read_continues (weaveScript_continues owner enclosing base document
      (next (context.supplies.value? handle))) _ handle
  | .require message check next => by
    rw [weaveScript]
    refine (Continues.note fun log ↦ log.addRequirement_eq_append _).bind fun _ ↦ ?_
    exact weaveScript_continues owner enclosing base document next

end

theorem single_continues (node : Node) :
    Continues (do pure [← documentOf context node]) := by
  refine Continues.bind ?_ fun document ↦ Continues.pure [document]
  unfold documentOf
  refine (weave_continues _ _ _ node).bind fun document ↦ ?_
  split <;> exact Continues.pure _

mutual

theorem collect_continues : ∀ node : Node, Continues (collect context node)
  | .fragment children => by
    rw [collect]
    exact collectAll_continues children
  | .component name script => by
    rw [collect]
    refine (Continues.note fun log ↦ log.addRendered_eq_append name).bind fun _ ↦ ?_
    exact collectScript_continues name script
  | .element type props tag children => by
    rw [collect]
    exact single_continues (.element type props tag children)
  | .literal path value isItem children => by
    rw [collect]
    exact single_continues (.literal path value isItem children)
  | .transform rewrite children => by
    rw [collect]
    exact single_continues (.transform rewrite children)

theorem collectAll_continues : ∀ nodes : List Node, Continues (collectAll context nodes)
  | [] => Continues.pure []
  | node :: rest => by
    rw [collectAll]
    refine (collect_continues node).bind fun front ↦ ?_
    exact (collectAll_continues rest).bind fun back ↦ Continues.pure _

theorem collectScript_continues (owner : String) : ∀ script : Script,
    Continues (collectScript context owner script)
  | .yield node => by
    rw [collectScript]
    exact collect_continues node
  | .suspend => by
    rw [collectScript]
    exact (Continues.note PassLog.addSuspended_eq_append).bind fun _ ↦ Continues.pure []
  | .read handle next => by
    rw [collectScript]
    exact read_continues
      (collectScript_continues owner (next (context.supplies.value? handle))) _ handle
  | .require message check next => by
    rw [collectScript]
    refine (Continues.note fun log ↦ log.addRequirement_eq_append _).bind fun _ ↦ ?_
    exact collectScript_continues owner next

end

/-! ## Passes one after the other -/

/-- What a pass and one behind it come to: the documents and logs of both in order, unless the first
one fails. -/
def followedBy (first second : Except Failure (List Json) × PassLog) :
    Except Failure (List Json) × PassLog :=
  match first with
  | (.ok front, log) => (second.1.map (front ++ ·), log.append second.2)
  | (.error failure, log) => (.error failure, log)

theorem empty_followedBy (second : Except Failure (List Json) × PassLog) :
    followedBy (.ok [], PassLog.empty) second = second := by
  rcases second with ⟨failure | back, log⟩ <;> simp [followedBy, Except.map]

theorem followedBy_assoc (first second third : Except Failure (List Json) × PassLog) :
    followedBy (followedBy first second) third = followedBy first (followedBy second third) := by
  rcases first with ⟨failure | front, log⟩
  · rfl
  · rcases second with ⟨failure | middle, more⟩
    · rfl
    · rcases third with ⟨failure | back, last⟩ <;>
        simp [followedBy, Except.map, PassLog.append_assoc]

/-- The first node's pass, then the one over the others. -/
theorem pass_fragment_cons (node : Node) (rest : List Node) :
    pass context (.fragment (node :: rest)) =
      followedBy (pass context node) (pass context (.fragment rest)) := by
  change exec (collect context (.fragment (node :: rest))) PassLog.empty =
    followedBy (exec (collect context node) PassLog.empty)
      (exec (collect context (.fragment rest)) PassLog.empty)
  rw [collect, collectAll, exec_bind, collect]
  rcases exec (collect context node) PassLog.empty with ⟨failure | front, log⟩
  · rfl
  · dsimp only
    rw [exec_bind, collectAll_continues rest log]
    rcases exec (collectAll context rest) PassLog.empty with ⟨failure | back, more⟩ <;> rfl

/-- A pass over nodes in two groups is a pass over the first group followed by one over the
second. -/
theorem pass_fragment_append_eq (front back : List Node) :
    pass context (.fragment (front ++ back)) =
      followedBy (pass context (.fragment front)) (pass context (.fragment back)) := by
  induction front with
  | nil => exact (empty_followedBy _).symm
  | cons node rest ih =>
    rw [List.cons_append, pass_fragment_cons, pass_fragment_cons, ih, followedBy_assoc]

theorem followedBy_eq_ok_iff {first second : Except Failure (List Json) × PassLog}
    {documents : List Json} {log : PassLog} :
    followedBy first second = (.ok documents, log) ↔
      ∃ xs ys entries more, first = (.ok xs, entries) ∧ second = (.ok ys, more) ∧
        documents = xs ++ ys ∧ log = entries.append more := by
  rcases first with ⟨failure | front, before⟩
  · simp [followedBy]
  · rcases second with ⟨failure | back, behind⟩
    · simp [followedBy, Except.map]
    · constructor
      · intro h
        cases h
        exact ⟨front, back, before, behind, rfl, rfl, rfl, rfl⟩
      · rintro ⟨xs, ys, entries, more, hfirst, hsecond, rfl, rfl⟩
        cases hfirst
        cases hsecond
        rfl

theorem fst_followedBy_eq_error_iff {first second : Except Failure (List Json) × PassLog}
    {failure : Failure} :
    (followedBy first second).1 = .error failure ↔
      first.1 = .error failure ∨ (∃ xs, first.1 = .ok xs) ∧ second.1 = .error failure := by
  rcases first with ⟨reason | front, before⟩
  · simp [followedBy]
  · rcases second with ⟨reason | back, behind⟩ <;> simp [followedBy, Except.map]

/-- The documents of one tree are independent. A pass over two groups of nodes succeeds exactly when
the passes over each group do, and then gives the documents and the log of the first group followed
by those of the second; otherwise it fails as the first group does, or else as the second one. A
fragment at the top of a tree may be replaced by its nodes. -/
theorem pass_fragment_append (context : Context) (front back : List Node) :
    (∀ documents log, pass context (.fragment (front ++ back)) = (.ok documents, log) ↔
      ∃ xs ys entries more, pass context (.fragment front) = (.ok xs, entries) ∧
        pass context (.fragment back) = (.ok ys, more) ∧ documents = xs ++ ys ∧
        log.rendered = entries.rendered ++ more.rendered ∧
        log.pending = entries.pending ++ more.pending ∧
        log.requirements = entries.requirements ++ more.requirements ∧
        log.suspended = entries.suspended + more.suspended) ∧
    (∀ failure, (pass context (.fragment (front ++ back))).1 = .error failure ↔
      (pass context (.fragment front)).1 = .error failure ∨
        (∃ xs, (pass context (.fragment front)).1 = .ok xs) ∧
          (pass context (.fragment back)).1 = .error failure) ∧
    ∀ inner, pass context (.fragment (front ++ .fragment inner :: back)) =
      pass context (.fragment (front ++ inner ++ back)) := by
  refine ⟨fun documents log ↦ ?_, fun failure ↦ ?_, fun inner ↦ ?_⟩
  · rw [pass_fragment_append_eq, followedBy_eq_ok_iff]
    rcases log with ⟨rendered, pending, requirements, suspended⟩
    simp only [PassLog.append, PassLog.mk.injEq]
  · rw [pass_fragment_append_eq]
    exact fst_followedBy_eq_error_iff
  · calc pass context (.fragment (front ++ .fragment inner :: back))
        = followedBy (pass context (.fragment front))
            (pass context (.fragment (.fragment inner :: back))) := pass_fragment_append_eq _ _
      _ = followedBy (pass context (.fragment front))
            (followedBy (pass context (.fragment inner)) (pass context (.fragment back))) := by
          rw [pass_fragment_cons]
      _ = pass context (.fragment (front ++ inner ++ back)) := by
          rw [List.append_assoc, pass_fragment_append_eq, pass_fragment_append_eq inner]

end Compose
end ManifestTree
