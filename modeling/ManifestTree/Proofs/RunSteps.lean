import ManifestTree.Settle

/-!
# Runs step by step

The equations of a run that nobody watches: what finalizing a pass comes to, and how one pass, one
batch of actions and one phase lead to the next. Later modules argue about runs with them, without
opening the watched run behind.
-/

namespace ManifestTree

/-! ## Finalizing -/

namespace Compose

variable (supplies : Supplies)

theorem violations_eq (requirements : List Requirement) :
    violations supplies requirements =
      (requirements.filter fun requirement ↦ !requirement.check supplies).map fun requirement ↦
        .violated requirement.owner requirement.message := by
  induction requirements with
  | nil => rfl
  | cons requirement rest ih =>
    have hcons : violations supplies (requirement :: rest) =
        if requirement.check supplies then violations supplies rest
        else .violated requirement.owner requirement.message :: violations supplies rest := rfl
    rw [hcons, ih]
    cases hcheck : requirement.check supplies <;> simp [hcheck]

theorem violations_eq_nil_iff (requirements : List Requirement) :
    violations supplies requirements = [] ↔
      requirements.all fun requirement ↦ requirement.check supplies := by
  rw [violations_eq, List.map_eq_nil_iff, List.filter_eq_nil_iff, List.all_eq_true]
  simp

theorem finalize_eq (documents : List Json) (log : PassLog) :
    finalize supplies documents log =
      if !isSettled log then .error (.unsettled log.suspended)
      else
        match Failure.batch? (violations supplies log.requirements) with
        | some failure => .error failure
        | none => .ok documents := rfl

end Compose

namespace Settle

/-! ## Passes -/

variable {schema : Schema} {marker : String} {tree : Node} {supplies : Supplies}

theorem afterPass_error (supplies : Supplies) (failure : Failure) (log : PassLog) :
    afterPass supplies (.error failure) log = .finished (.failed failure) := rfl

theorem afterPass_ok (supplies : Supplies) (documents : List Json) (log : PassLog) :
    afterPass supplies (.ok documents) log =
      if Compose.isSettled log then
        .finished (Outcome.ofExcept (Compose.finalize supplies documents log))
      else
        match log.pending with
        | [] => .finished (.failed (.unsettled log.suspended))
        | handle :: rest => await supplies handle rest := rfl

theorem attempt_of_pass {result : Except Failure (List Json)} {log : PassLog}
    (h : Compose.pass ⟨schema, marker, supplies⟩ tree = (result, log)) :
    attempt schema marker tree supplies =
      (.passed log (judged result log), afterPass supplies result log) := by
  unfold attempt Watched.attempt
  rw [h]
  rfl

section Resuming

variable {pending others : List Handle} {handle : Handle}

theorem resume_of_unready (h : supplies.unready pending = handle :: others) :
    resume schema marker tree supplies pending = ([], await supplies handle others) := by
  rw [resume, Watched.resume, h]
  rfl

theorem resume_of_ready (h : supplies.unready pending = []) :
    resume schema marker tree supplies pending =
      ([(attempt schema marker tree supplies).1], (attempt schema marker tree supplies).2) := by
  rw [resume, Watched.resume, h]
  rfl

end Resuming

/-! ## Phases -/

variable {trees : Nat → Node}

theorem proceed_finished (outcome : Outcome) (batches : List (List SupplyAction)) :
    proceed schema marker trees supplies (.finished outcome) batches =
      ⟨[], outcome, supplies⟩ := by
  cases batches <;> rfl

theorem proceed_blocked_nil (pending : List Handle) :
    proceed schema marker trees supplies (.blocked pending) [] = ⟨[], .waiting, supplies⟩ := rfl

theorem proceed_blocked_cons {pending : List Handle} {batch : List SupplyAction}
    {events : List Event} {phase : Phase}
    (h : resume schema marker (trees 0) (supplies.applyAll batch).2 pending = (events, phase))
    (rest : List (List SupplyAction)) :
    proceed schema marker trees supplies (.blocked pending) (batch :: rest) =
      let later := supplies.applyAll batch
      let run := proceed schema marker (fun pass ↦ trees (pass + events.length)) later.2 phase rest
      { run with events := later.1.map Event.waited ++ events ++ run.events } := by
  have hevents := congrArg Prod.fst h
  have hphase := congrArg Prod.snd h
  subst hevents hphase
  rfl

theorem runTrees_eq (batches : List (List SupplyAction)) :
    runTrees schema marker trees supplies batches =
      let first := attempt schema marker (trees 0) supplies
      let run := proceed schema marker (fun pass ↦ trees (pass + 1)) supplies first.2 batches
      { run with events := first.1 :: run.events } := rfl

end Settle
end ManifestTree
