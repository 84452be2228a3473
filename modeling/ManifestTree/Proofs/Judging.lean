import ManifestTree.Proofs.PassLogs
import ManifestTree.Proofs.RunJournal

/-!
# Judging the requirements of a run

Requirements are judged once, completely, and only at the end. Every pass but the last one failed to
settle, and none of its requirements is ever evaluated. When the last pass settles, all requirements
that its components stated are evaluated in the order of stating; the run ends with the documents
when all of them hold, and otherwise reports each that does not.
-/

namespace ManifestTree.Settle

/-- The pass composes something but does not settle. -/
def Unsettled (schema : Schema) (marker : String) (tree : Node) (supplies : Supplies) : Prop :=
  ∃ documents, (Compose.pass ⟨schema, marker, supplies⟩ tree).1 = .ok documents ∧
    ¬ Compose.isSettled (Compose.pass ⟨schema, marker, supplies⟩ tree).2

/-- The end of a run: what its last pass came to, the requirements that were evaluated after it,
and the outcome. -/
structure JudgedAtEnd (schema : Schema) (marker : String) (tree : Node) (last : Supplies)
    (evaluated : List Requirement) (outcome : Outcome) : Prop where
  /-- A failure of the pass is reported as it is, and nothing is evaluated. -/
  fails : ∀ failure, (Compose.pass ⟨schema, marker, last⟩ tree).1 = .error failure →
    evaluated = [] ∧ outcome = .failed failure
  /-- After a settled pass all its requirements are evaluated, depth first; the documents are given
  away when they hold, and otherwise every one that does not hold is reported with its owner. -/
  settles : ∀ documents, (Compose.pass ⟨schema, marker, last⟩ tree).1 = .ok documents →
    Compose.isSettled (Compose.pass ⟨schema, marker, last⟩ tree).2 →
    evaluated = (tree.logged last).requirements ∧
      outcome = if evaluated.all fun requirement ↦ requirement.check last then
          .documents documents
        else .failed (.requirements
          ((evaluated.filter fun requirement ↦ !requirement.check last).map fun requirement ↦
            .violated requirement.owner requirement.message))
  /-- A pass that does not settle leaves everything unjudged, and there are no documents. -/
  waits : ∀ documents, (Compose.pass ⟨schema, marker, last⟩ tree).1 = .ok documents →
    ¬ Compose.isSettled (Compose.pass ⟨schema, marker, last⟩ tree).2 →
    evaluated = [] ∧ outcome.Stops (Compose.pass ⟨schema, marker, last⟩ tree).2

theorem batch?_eq (failures : List Failure) :
    Failure.batch? failures = if failures = [] then none else some (.requirements failures) := by
  cases failures <;> rfl

/-- Finalizing a settled pass gives the documents away or reports what does not hold. -/
theorem ofExcept_finalize {log : PassLog} (hsettled : Compose.isSettled log) (supplies : Supplies)
    (documents : List Json) :
    Outcome.ofExcept (Compose.finalize supplies documents log) =
      if log.requirements.all fun requirement ↦ requirement.check supplies then
        .documents documents
      else .failed (.requirements (Compose.violations supplies log.requirements)) := by
  rw [Compose.finalize_eq, hsettled, batch?_eq]
  simp only [Bool.not_true, Bool.false_eq_true, if_false]
  by_cases hnone : Compose.violations supplies log.requirements = []
  · rw [if_pos hnone, if_pos ((Compose.violations_eq_nil_iff supplies _).mp hnone)]
    rfl
  · rw [if_neg hnone, if_neg fun hall ↦ hnone ((Compose.violations_eq_nil_iff supplies _).mpr hall)]
    rfl

variable {schema : Schema} {marker : String} {tree : Node} {supplies last : Supplies}
  {outcome : Outcome}

namespace JudgedAtEnd

theorem of_failed {failure : Failure} {log : PassLog}
    (hpass : Compose.pass ⟨schema, marker, last⟩ tree = (.error failure, log)) :
    JudgedAtEnd schema marker tree last [] (.failed failure) where
  fails := by
    intro other h
    rw [hpass] at h
    cases h
    exact ⟨rfl, rfl⟩
  settles := by
    intro documents h
    rw [hpass] at h
    cases h
  waits := by
    intro documents h
    rw [hpass] at h
    cases h

theorem of_judged {documents : List Json} {log : PassLog}
    (hpass : Compose.pass ⟨schema, marker, last⟩ tree = (.ok documents, log))
    (hsettled : Compose.isSettled log) :
    JudgedAtEnd schema marker tree last log.requirements
      (Outcome.ofExcept (Compose.finalize last documents log)) where
  fails := by
    intro failure h
    rw [hpass] at h
    cases h
  settles := by
    intro others h _
    rw [hpass] at h
    cases h
    refine ⟨congrArg PassLog.requirements (Compose.pass_logged hpass), ?_⟩
    rw [ofExcept_finalize hsettled, Compose.violations_eq]
  waits := by
    intro others _ hunsettled
    rw [hpass] at hunsettled
    exact absurd hsettled hunsettled

theorem of_stopped {documents : List Json} {log : PassLog}
    (hpass : Compose.pass ⟨schema, marker, last⟩ tree = (.ok documents, log))
    (hunsettled : ¬ Compose.isSettled log) (hstops : outcome.Stops log) :
    JudgedAtEnd schema marker tree last [] outcome where
  fails := by
    intro failure h
    rw [hpass] at h
    cases h
  settles := by
    intro others _ hsettled
    rw [hpass] at hsettled
    exact absurd hsettled hunsettled
  waits := by
    intro others _ _
    rw [hpass]
    exact ⟨rfl, hstops⟩

end JudgedAtEnd

/-- The journal of a run in full: passes that did not settle, the last pass, what was evaluated. -/
theorem Unfolds.exists_judgedAtEnd {trees : ℕ → Node} {deeds : List Deed} {events : List Event}
    (h : Unfolds schema marker trees supplies deeds events outcome) :
    ∃ (earlier : List Supplies) (last : Supplies) (evaluated : List Requirement),
      deeds = earlier.map .passes ++ .passes last :: evaluated.map .judges ∧
      events = earlier.mapIdx (fun pass supplies ↦
          .passed (Compose.pass ⟨schema, marker, supplies⟩ (trees pass)).2 0) ++
        [.passed (Compose.pass ⟨schema, marker, last⟩ (trees earlier.length)).2
          evaluated.length] ∧
      (∀ pass supplies, earlier[pass]? = some supplies →
        Unsettled schema marker (trees pass) supplies) ∧
      JudgedAtEnd schema marker (trees earlier.length) last evaluated outcome := by
  induction h with
  | @failed trees supplies failure log hpass =>
    refine ⟨[], supplies, [], rfl, ?_, by simp, .of_failed hpass⟩
    rw [List.length_nil, hpass]
    rfl
  | @judged trees supplies documents log hpass hsettled =>
    refine ⟨[], supplies, log.requirements, rfl, ?_, by simp, .of_judged hpass hsettled⟩
    rw [List.length_nil, hpass]
    rfl
  | @stopped trees supplies documents log outcome hpass hunsettled hstops =>
    refine ⟨[], supplies, [], rfl, ?_, by simp, .of_stopped hpass hunsettled hstops⟩
    rw [List.length_nil, hpass]
    rfl
  | @again trees supplies later documents log deeds events outcome hpass hunsettled hpending
      harrived hkept hrest ih =>
    obtain ⟨earlier, last, evaluated, hdeeds, hevents, hearlier, hend⟩ := ih
    refine ⟨supplies :: earlier, last, evaluated, ?_, ?_, ?_, hend⟩
    · rw [hdeeds]
      rfl
    · rw [hevents, List.mapIdx_cons, hpass]
      rfl
    · intro pass other hother
      cases pass with
      | zero =>
        cases hother
        exact ⟨documents, by rw [hpass], by rw [hpass]; exact hunsettled⟩
      | succ pass => exact hearlier pass other hother

/-- Requirements are judged once, completely, and only at the end, each pass having a tree of its
own: nothing is evaluated before the last pass, each pass but the last one composed something but
did not settle, and after the last one the requirements are evaluated, and reported, as
`JudgedAtEnd` says. -/
theorem runTrees_judges (schema : Schema) (marker : String) (trees : ℕ → Node)
    (supplies : Supplies) (batches : List (List SupplyAction)) :
    let run := runTrees schema marker trees supplies batches
    ∃ (earlier : List Supplies) (last : Supplies) (evaluated : List Requirement),
      (runTreesJournaled schema marker trees supplies batches).run [] =
        (run, earlier.map .passes ++ .passes last :: evaluated.map .judges) ∧
      passEvents run.events = earlier.mapIdx (fun pass supplies ↦
          .passed (Compose.pass ⟨schema, marker, supplies⟩ (trees pass)).2 0) ++
        [.passed (Compose.pass ⟨schema, marker, last⟩ (trees earlier.length)).2
          evaluated.length] ∧
      (∀ pass supplies, earlier[pass]? = some supplies →
        Unsettled schema marker (trees pass) supplies) ∧
      JudgedAtEnd schema marker (trees earlier.length) last evaluated run.outcome := by
  intro run
  obtain ⟨deeds, hjournal, hunfolds⟩ := runTrees_unfolds schema marker trees supplies batches
  obtain ⟨earlier, last, evaluated, hdeeds, hrest⟩ := hunfolds.exists_judgedAtEnd
  refine ⟨earlier, last, evaluated, ?_, hrest⟩
  rw [hjournal, hdeeds]

/-- Requirements are judged once, completely, and only at the end: nothing is evaluated before the
last pass, each pass but the last one composed something but did not settle, and after the last one
the requirements are evaluated, and reported, as `JudgedAtEnd` says. -/
theorem runBatches_judges (schema : Schema) (marker : String) (tree : Node) (supplies : Supplies)
    (batches : List (List SupplyAction)) :
    ∃ (earlier : List Supplies) (last : Supplies) (evaluated : List Requirement),
      (runBatchesJournaled schema marker tree supplies batches).run [] =
        (runBatches schema marker tree supplies batches,
          earlier.map .passes ++ .passes last :: evaluated.map .judges) ∧
      passEvents (runBatches schema marker tree supplies batches).events =
        earlier.map (fun supplies ↦
          .passed (Compose.pass ⟨schema, marker, supplies⟩ tree).2 0) ++
        [.passed (Compose.pass ⟨schema, marker, last⟩ tree).2 evaluated.length] ∧
      (∀ supplies ∈ earlier, Unsettled schema marker tree supplies) ∧
      JudgedAtEnd schema marker tree last evaluated
        (runBatches schema marker tree supplies batches).outcome := by
  obtain ⟨earlier, last, evaluated, hjournal, hevents, hearlier, hend⟩ :=
    runTrees_judges schema marker (fun _ ↦ tree) supplies batches
  refine ⟨earlier, last, evaluated, hjournal, ?_, ?_, hend⟩
  · refine hevents.trans (congrArg (· ++ _) ?_)
    exact List.mapIdx_eq_iff.mpr fun _ ↦ List.getElem?_map
  · intro supplies hmem
    obtain ⟨pass, hpass⟩ := List.mem_iff_getElem?.mp hmem
    exact hearlier pass supplies hpass

/-- Two components state the same requirement, which does not hold; both are reported, and the one
in between is not. -/
example :
    (runBatches default "@" (.fragment
      [.component "first" (.require "too few" (fun _ ↦ false) (.yield (.fragment []))),
        .component "second" (.require "fine" (fun _ ↦ true) (.yield (.fragment []))),
        .component "first" (.require "too few" (fun _ ↦ false) (.yield (.fragment [])))])
      [] []).outcome =
        .failed (.requirements [.violated "first" "too few", .violated "first" "too few"]) := rfl

end ManifestTree.Settle
