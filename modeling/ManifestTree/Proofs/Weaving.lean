import ManifestTree.Compose

/-!
# Running the parts of a pass

A part of a pass takes the log so far to an answer or a failure and to the log afterwards. The rules
here say what each way of building a part does to both, so that later modules argue about parts
without opening the monad they live in.
-/

namespace ManifestTree

namespace Weaving

open Compose

variable {α β : Type}

/-- The answer or failure of a part from a given log, and the log afterwards. -/
def exec (part : Weaving α) (log : PassLog) : Except Failure α × PassLog := part.run.run log

@[simp]
theorem exec_pure (answer : α) (log : PassLog) :
    exec (pure answer : Weaving α) log = (.ok answer, log) := rfl

theorem exec_bind (part : Weaving α) (next : α → Weaving β) (log : PassLog) :
    exec (part >>= next) log =
      match exec part log with
      | (.ok answer, log) => exec (next answer) log
      | (.error failure, log) => (.error failure, log) := by
  change (part.run >>= ExceptT.bindCont next).run log = _
  rw [StateT.run_bind]
  unfold exec
  rcases h : part.run.run log with ⟨answer | failure, after⟩ <;> rfl

theorem exec_bind_of_ok {part : Weaving α} {log after : PassLog} {answer : α}
    (h : exec part log = (.ok answer, after)) (next : α → Weaving β) :
    exec (part >>= next) log = exec (next answer) after := by
  rw [exec_bind, h]

theorem exec_bind_of_error {part : Weaving α} {log after : PassLog} {failure : Failure}
    (h : exec part log = (.error failure, after)) (next : α → Weaving β) :
    exec (part >>= next) log = (.error failure, after) := by
  rw [exec_bind, h]

/-- A sequence answers when its first part answers and then its second one does. -/
theorem exec_bind_eq_ok_iff {part : Weaving α} {next : α → Weaving β} {log after : PassLog}
    {answer : β} :
    exec (part >>= next) log = (.ok answer, after) ↔
      ∃ first middle, exec part log = (.ok first, middle) ∧
        exec (next first) middle = (.ok answer, after) := by
  rcases h : exec part log with ⟨failure | first, middle⟩
  · rw [exec_bind_of_error h]
    simp
  · rw [exec_bind_of_ok h]
    constructor
    · intro hnext
      exact ⟨first, middle, rfl, hnext⟩
    · rintro ⟨_, _, heq, hnext⟩
      cases heq
      exact hnext

@[simp]
theorem exec_note (change : PassLog → PassLog) (log : PassLog) :
    exec (note change) log = (.ok (), change log) := rfl

@[simp]
theorem exec_settleWith (outcome : Except Failure α) (log : PassLog) :
    exec (settleWith outcome) log = (outcome, log) := by
  cases outcome <;> rfl

theorem exec_written (result : Except Failure α × Json) (log : PassLog) :
    exec (written result) log = (result.1.map fun answer ↦ (answer, result.2), log) :=
  exec_settleWith _ log

end Weaving

/-! ## Reading deferred values -/

namespace Compose

variable {context : Context} {handle : Handle}

theorem weaveScript_read_of_none (h : context.supplies.value? handle = none) (owner : String)
    (enclosing : List TypeName) (base : FieldPath) (document : Json)
    (next : Option Json → Script) :
    weaveScript context owner enclosing base document (.read handle next) = (do
      note fun log ↦ log.addPending handle
      weaveScript context owner enclosing base document (next none)) := by
  rw [weaveScript, h]
  rfl

theorem weaveScript_read_of_some {value : Json} (h : context.supplies.value? handle = some value)
    (owner : String) (enclosing : List TypeName) (base : FieldPath) (document : Json)
    (next : Option Json → Script) :
    weaveScript context owner enclosing base document (.read handle next) =
      weaveScript context owner enclosing base document (next (some value)) := by
  rw [weaveScript, h]
  rfl

theorem collectScript_read_of_none (h : context.supplies.value? handle = none) (owner : String)
    (next : Option Json → Script) :
    collectScript context owner (.read handle next) = (do
      note fun log ↦ log.addPending handle
      collectScript context owner (next none)) := by
  rw [collectScript, h]
  rfl

theorem collectScript_read_of_some {value : Json}
    (h : context.supplies.value? handle = some value) (owner : String)
    (next : Option Json → Script) :
    collectScript context owner (.read handle next) =
      collectScript context owner (next (some value)) := by
  rw [collectScript, h]
  rfl

end Compose
end ManifestTree
