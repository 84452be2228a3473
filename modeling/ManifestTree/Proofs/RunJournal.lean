import Mathlib.Data.List.TakeWhile
import ManifestTree.Proofs.ArrivalOrder

/-!
# Runs that keep a journal

A run is watched by somebody who writes down, in the order in which they happen, the supplies of
every pass and every requirement that is judged; the run has no other way to a check's answer.
Watching changes nothing: without its journal the run is the one that nobody watches. A whole
journal unfolds from pass to pass: either a pass ends the run, or every handle it missed has a value
by the time of the next pass, and no value given so far is lost.
-/

namespace ManifestTree

/-! ## Values persist -/

namespace Supplies

/-- Every handle with a value in the early supplies has one in the late supplies. -/
def KeptIn (early late : Supplies) : Prop :=
  ∀ handle, (early.value? handle).isSome → (late.value? handle).isSome

theorem KeptIn.refl (supplies : Supplies) : supplies.KeptIn supplies := fun _ h ↦ h

theorem KeptIn.trans {first second third : Supplies} (h : first.KeptIn second)
    (hnext : second.KeptIn third) : first.KeptIn third :=
  fun handle hsome ↦ hnext handle (h handle hsome)

theorem keptIn_apply (supplies : Supplies) (action : SupplyAction) :
    supplies.KeptIn (supplies.apply action).2 := by
  intro handle hsome
  cases action with
  | give other value =>
    rw [apply]
    split
    · rw [value?_insert]
      split
      · rfl
      · exact hsome
    · exact hsome
  | withdraw other =>
    rw [apply]
    split
    · rw [value?_insert]
      split
      · next heq =>
        subst heq
        exact hsome
      · exact hsome
    · exact hsome

theorem keptIn_applyAll (supplies : Supplies) (batch : List SupplyAction) :
    supplies.KeptIn (supplies.applyAll batch).2 := by
  induction batch generalizing supplies with
  | nil => exact KeptIn.refl supplies
  | cons action rest ih => exact (keptIn_apply supplies action).trans (ih _)

theorem unready_subset (supplies : Supplies) (handles : List Handle) :
    supplies.unready handles ⊆ handles :=
  (List.dropWhile_sublist _).subset

/-- A handle has its value, or it is still to be awaited. -/
theorem isSome_or_mem_unready (supplies : Supplies) {handles : List Handle} {handle : Handle}
    (hmem : handle ∈ handles) :
    (supplies.value? handle).isSome ∨ handle ∈ supplies.unready handles := by
  unfold unready
  rw [← List.takeWhile_append_dropWhile (p := fun handle ↦ (supplies.value? handle).isSome)
    (l := handles)] at hmem
  rcases List.mem_append.mp hmem with hready | hunready
  · have hsome := List.mem_takeWhile_imp hready
    exact Or.inl hsome
  · exact Or.inr hunready

end Supplies

namespace Settle

/-! ## The journal -/

abbrev Journal := StateM (List Deed)

namespace Journal

/-- The deed is written down behind those before it. -/
def enter (deed : Deed) : Journal Unit := modify fun past ↦ past ++ [deed]

variable {α β : Type}

theorem run_enter (deed : Deed) (past : List Deed) :
    (enter deed).run past = ((), past ++ [deed]) := rfl

theorem run_pure (answer : α) (past : List Deed) :
    (pure answer : Journal α).run past = (answer, past) := rfl

theorem run_bind {part : Journal α} {past later : List Deed} {answer : α}
    (h : part.run past = (answer, later)) (next : α → Journal β) :
    (part >>= next).run past = (next answer).run later := by
  rw [StateT.run_bind, h]
  rfl

end Journal

open Journal

/-- The run of one tree a pass, written down. -/
def runTreesJournaled (schema : Schema) (marker : String) (trees : ℕ → Node) (supplies : Supplies)
    (batches : List (List SupplyAction)) : Journal Run :=
  Watched.runTrees enter schema marker trees supplies batches

/-- The run of a tree that is the same in every pass, written down. -/
def runBatchesJournaled (schema : Schema) (marker : String) (tree : Node) (supplies : Supplies)
    (batches : List (List SupplyAction)) : Journal Run :=
  runTreesJournaled schema marker (fun _ ↦ tree) supplies batches

/-! ## What each part writes down -/

variable {schema : Schema} {marker : String} {tree : Node} {trees : ℕ → Node}
  {supplies : Supplies}

theorem run_judge (supplies : Supplies) (requirement : Requirement) (past : List Deed) :
    (Watched.judge enter supplies requirement).run past =
      (requirement.check supplies, past ++ [.judges requirement]) := rfl

/-- Every requirement is judged once, in order, also behind one that does not hold. -/
theorem run_violationsBy (supplies : Supplies) (requirements : List Requirement)
    (past : List Deed) :
    (Compose.violationsBy (Watched.judge enter supplies) requirements).run past =
      (Compose.violations supplies requirements, past ++ requirements.map .judges) := by
  induction requirements generalizing past with
  | nil =>
    rw [Compose.violationsBy, run_pure, List.map_nil, List.append_nil]
    rfl
  | cons requirement rest ih =>
    rw [Compose.violationsBy, run_bind (run_judge supplies requirement past), run_bind (ih _),
      run_pure, List.append_assoc]
    rfl

theorem run_finalizeBy {log : PassLog} (hsettled : Compose.isSettled log)
    (supplies : Supplies) (documents : List Json) (past : List Deed) :
    (Compose.finalizeBy (Watched.judge enter supplies) documents log).run past =
      (Compose.finalize supplies documents log, past ++ log.requirements.map .judges) := by
  rw [Compose.finalizeBy, Compose.finalize_eq, hsettled]
  simp only [Bool.not_true, Bool.false_eq_true, if_false]
  rw [run_bind (run_violationsBy supplies log.requirements past)]
  cases Failure.batch? (Compose.violations supplies log.requirements) <;> rfl

/-- The requirements that are judged after a pass: all of them when it settled, otherwise none. -/
def judgedAfter : Except Failure (List Json) → PassLog → List Requirement
  | .error _, _ => []
  | .ok _, log => if Compose.isSettled log then log.requirements else []

theorem judged_eq_length (result : Except Failure (List Json)) (log : PassLog) :
    judged result log = (judgedAfter result log).length := by
  cases result with
  | error failure => rfl
  | ok documents =>
    rw [judged, judgedAfter, Compose.checked]
    split <;> rfl

theorem run_afterPass (supplies : Supplies) (result : Except Failure (List Json))
    (log : PassLog) (past : List Deed) :
    (Watched.afterPass enter supplies result log).run past =
      (afterPass supplies result log, past ++ (judgedAfter result log).map .judges) := by
  cases result with
  | error failure =>
    rw [Watched.afterPass, afterPass_error, judgedAfter, run_pure, List.map_nil, List.append_nil]
  | ok documents =>
    rw [Watched.afterPass, afterPass_ok, judgedAfter]
    split
    · next hsettled =>
      rw [run_bind (run_finalizeBy hsettled supplies documents past), run_pure]
    · rw [List.map_nil, List.append_nil]
      cases log.pending <;> rfl

/-- What a pass writes down: its supplies, and the requirements that are judged after it. -/
def passDeeds (schema : Schema) (marker : String) (tree : Node) (supplies : Supplies) :
    List Deed :=
  let (result, log) := Compose.pass ⟨schema, marker, supplies⟩ tree
  .passes supplies :: (judgedAfter result log).map .judges

theorem run_attempt (supplies : Supplies) (past : List Deed) :
    (Watched.attempt enter schema marker tree supplies).run past =
      (attempt schema marker tree supplies, past ++ passDeeds schema marker tree supplies) := by
  rcases hpass : Compose.pass ⟨schema, marker, supplies⟩ tree with ⟨result, log⟩
  rw [Watched.attempt, attempt_of_pass hpass, passDeeds, hpass, run_bind (run_enter _ past)]
  dsimp only
  rw [run_bind (run_afterPass supplies result log _), run_pure, List.append_assoc]
  rfl

section Resuming

variable {pending others : List Handle} {handle : Handle}

theorem run_resume_of_unready (h : supplies.unready pending = handle :: others)
    (past : List Deed) :
    (Watched.resume enter schema marker tree supplies pending).run past =
      (([], await supplies handle others), past ++ []) := by
  rw [Watched.resume, h, List.append_nil]
  rfl

theorem run_resume_of_ready (h : supplies.unready pending = []) (past : List Deed) :
    (Watched.resume enter schema marker tree supplies pending).run past =
      (([(attempt schema marker tree supplies).1], (attempt schema marker tree supplies).2),
        past ++ passDeeds schema marker tree supplies) := by
  rw [Watched.resume, h]
  dsimp only
  rw [run_bind (run_attempt supplies past), run_pure]

end Resuming

/-! ## How a run unfolds -/

def Event.isPass : Event → Bool
  | .passed _ _ => true
  | .waited _ => false

def passEvents (events : List Event) : List Event := events.filter Event.isPass

theorem passEvents_waited_append (outcomes : List SupplyOutcome) (events later : List Event) :
    passEvents (outcomes.map Event.waited ++ events ++ later) =
      passEvents events ++ passEvents later := by
  simp [passEvents, Event.isPass]

/-- How a run ends after a pass that did not settle, without another pass. -/
inductive Outcome.Stops (log : PassLog) : Outcome → Prop where
  | waiting (h : log.pending ≠ []) : Stops log .waiting
  | unsettled (h : log.pending = []) : Stops log (.failed (.unsettled log.suspended))
  | abandoned {handle : Handle} (h : handle ∈ log.pending) :
    Stops log (.failed (.abandoned handle.label))

/-- A run from a pass with the supplies on, the first of the trees being that of this pass: its
deeds, its passes as they are seen, and its outcome. -/
inductive Unfolds (schema : Schema) (marker : String) :
    (ℕ → Node) → Supplies → List Deed → List Event → Outcome → Prop where
  | failed {trees : ℕ → Node} {supplies : Supplies} {failure : Failure} {log : PassLog}
    (hpass : Compose.pass ⟨schema, marker, supplies⟩ (trees 0) = (.error failure, log)) :
    Unfolds schema marker trees supplies [.passes supplies] [.passed log 0] (.failed failure)
  | judged {trees : ℕ → Node} {supplies : Supplies} {documents : List Json} {log : PassLog}
    (hpass : Compose.pass ⟨schema, marker, supplies⟩ (trees 0) = (.ok documents, log))
    (hsettled : Compose.isSettled log) :
    Unfolds schema marker trees supplies (.passes supplies :: log.requirements.map .judges)
      [.passed log log.requirements.length]
      (Outcome.ofExcept (Compose.finalize supplies documents log))
  | stopped {trees : ℕ → Node} {supplies : Supplies} {documents : List Json} {log : PassLog}
    {outcome : Outcome}
    (hpass : Compose.pass ⟨schema, marker, supplies⟩ (trees 0) = (.ok documents, log))
    (hunsettled : ¬ Compose.isSettled log) (hstops : outcome.Stops log) :
    Unfolds schema marker trees supplies [.passes supplies] [.passed log 0] outcome
  /-- The pass does not settle, and another one takes place once all that it missed is there. -/
  | again {trees : ℕ → Node} {supplies later : Supplies} {documents : List Json} {log : PassLog}
    {deeds : List Deed} {events : List Event} {outcome : Outcome}
    (hpass : Compose.pass ⟨schema, marker, supplies⟩ (trees 0) = (.ok documents, log))
    (hunsettled : ¬ Compose.isSettled log) (hpending : log.pending ≠ [])
    (harrived : ∀ handle ∈ log.pending, (later.value? handle).isSome)
    (hkept : supplies.KeptIn later)
    (hrest : Unfolds schema marker (fun pass ↦ trees (pass + 1)) later deeds events outcome) :
    Unfolds schema marker trees supplies (.passes supplies :: deeds) (.passed log 0 :: events)
      outcome

/-- A part that is written down goes as it does unwatched, and what it adds unfolds behind the
front. -/
def Tells (schema : Schema) (marker : String) (trees : ℕ → Node) (supplies : Supplies)
    (front : List Deed) (shown : List Event) (part : Journal Run) (run : Run) : Prop :=
  ∃ deeds, (∀ past, part.run past = (run, past ++ deeds)) ∧
    Unfolds schema marker trees supplies (front ++ deeds) (shown ++ passEvents run.events)
      run.outcome

/-- A run that is over adds nothing. -/
theorem tells_finished {later : ℕ → Node} {supplies now : Supplies} {front : List Deed}
    {shown : List Event} {outcome : Outcome}
    (h : Unfolds schema marker trees supplies front shown outcome)
    (batches : List (List SupplyAction)) :
    Tells schema marker trees supplies front shown
      (Watched.proceed enter schema marker later now (.finished outcome) batches)
      (proceed schema marker later now (.finished outcome) batches) := by
  refine ⟨[], fun past ↦ ?_, ?_⟩
  · rw [Watched.proceed, proceed_finished, run_pure, List.append_nil]
  · rw [proceed_finished, List.append_nil]
    simpa [passEvents] using h

/-- What is known while a run awaits some handles after a pass: every value of that pass is still
there, and whatever the pass missed has arrived or is awaited. -/
structure Awaits (supplies now : Supplies) (log : PassLog) (pending : List Handle) : Prop where
  kept : supplies.KeptIn now
  arrived : ∀ handle ∈ log.pending, (now.value? handle).isSome ∨ handle ∈ pending
  missed : pending ⊆ log.pending

namespace Awaits

variable {now : Supplies} {log : PassLog} {pending : List Handle}

theorem start (supplies : Supplies) (log : PassLog) :
    Awaits supplies supplies log log.pending where
  kept := Supplies.KeptIn.refl supplies
  arrived := fun _ hmem ↦ Or.inr hmem
  missed := List.Subset.refl log.pending

/-- After a batch of actions the handles without a value are awaited. -/
theorem next (h : Awaits supplies now log pending) (batch : List SupplyAction) :
    Awaits supplies (now.applyAll batch).2 log ((now.applyAll batch).2.unready pending) where
  kept := h.kept.trans (Supplies.keptIn_applyAll now batch)
  arrived := by
    intro handle hmem
    rcases h.arrived handle hmem with hsome | hpending
    · exact Or.inl (Supplies.keptIn_applyAll now batch handle hsome)
    · exact Supplies.isSome_or_mem_unready _ hpending
  missed := List.Subset.trans (Supplies.unready_subset _ pending) h.missed

end Awaits

/-- The run from a pass on unfolds if it does so whenever the pass leaves handles to await. -/
theorem attempt_tells (trees : ℕ → Node) (supplies : Supplies)
    {batches : List (List SupplyAction)}
    (hblocked : ∀ documents log,
      Compose.pass ⟨schema, marker, supplies⟩ (trees 0) = (.ok documents, log) →
      ¬ Compose.isSettled log → log.pending ≠ [] →
      Tells schema marker trees supplies [.passes supplies] [.passed log 0]
        (Watched.proceed enter schema marker (fun pass ↦ trees (pass + 1)) supplies
          (.blocked log.pending) batches)
        (proceed schema marker (fun pass ↦ trees (pass + 1)) supplies (.blocked log.pending)
          batches)) :
    Tells schema marker trees supplies (passDeeds schema marker (trees 0) supplies)
      [(attempt schema marker (trees 0) supplies).1]
      (Watched.proceed enter schema marker (fun pass ↦ trees (pass + 1)) supplies
        (attempt schema marker (trees 0) supplies).2 batches)
      (proceed schema marker (fun pass ↦ trees (pass + 1)) supplies
        (attempt schema marker (trees 0) supplies).2 batches) := by
  rcases hpass : Compose.pass ⟨schema, marker, supplies⟩ (trees 0) with
    ⟨failure | documents, log⟩
  · rw [attempt_of_pass hpass, passDeeds, hpass]
    exact tells_finished (Unfolds.failed hpass) batches
  · rw [attempt_of_pass hpass, passDeeds, hpass]
    dsimp only
    rw [judged_eq_length, judgedAfter, afterPass_ok]
    by_cases hsettled : Compose.isSettled log
    · rw [if_pos hsettled, if_pos hsettled]
      exact tells_finished (Unfolds.judged hpass hsettled) batches
    · rw [if_neg hsettled, if_neg hsettled]
      cases hpending : log.pending with
      | nil =>
        exact tells_finished (Unfolds.stopped hpass hsettled (.unsettled hpending)) batches
      | cons handle rest =>
        dsimp only
        rw [await]
        split
        · rw [← hpending]
          exact hblocked documents log hpass hsettled (by simp [hpending])
        · refine tells_finished (Unfolds.stopped hpass hsettled (.abandoned ?_)) batches
          simp [hpending]

/-- A batch of actions and what follows it come before the rest of the run. -/
theorem batch_tells {later : ℕ → Node} {now : Supplies} {front more : List Deed}
    {shown events : List Event} {batch : List SupplyAction} {rest : List (List SupplyAction)}
    {pending : List Handle} {phase : Phase}
    (hresume : resume schema marker (later 0) (now.applyAll batch).2 pending = (events, phase))
    (hjournaled : ∀ past,
      (Watched.resume enter schema marker (later 0) (now.applyAll batch).2 pending).run past =
        ((events, phase), past ++ more))
    (h : Tells schema marker trees supplies (front ++ more) (shown ++ passEvents events)
      (Watched.proceed enter schema marker (fun pass ↦ later (pass + events.length))
        (now.applyAll batch).2 phase rest)
      (proceed schema marker (fun pass ↦ later (pass + events.length)) (now.applyAll batch).2
        phase rest)) :
    Tells schema marker trees supplies front shown
      (Watched.proceed enter schema marker later now (.blocked pending) (batch :: rest))
      (proceed schema marker later now (.blocked pending) (batch :: rest)) := by
  obtain ⟨deeds, hrun, hunfolds⟩ := h
  refine ⟨more ++ deeds, fun past ↦ ?_, ?_⟩
  · rw [Watched.proceed, proceed_blocked_cons hresume]
    dsimp only
    rw [run_bind (hjournaled past)]
    dsimp only
    rw [run_bind (hrun _), run_pure, List.append_assoc past]
  · rw [proceed_blocked_cons hresume]
    dsimp only
    rw [passEvents_waited_append, ← List.append_assoc, ← List.append_assoc]
    exact hunfolds

/-- While a run awaits handles it tells how the last pass goes on. -/
theorem blocked_tells (batches : List (List SupplyAction)) {trees : ℕ → Node}
    {supplies now : Supplies} {documents : List Json} {log : PassLog} {pending : List Handle}
    (hpass : Compose.pass ⟨schema, marker, supplies⟩ (trees 0) = (.ok documents, log))
    (hunsettled : ¬ Compose.isSettled log) (hmissed : log.pending ≠ [])
    (h : Awaits supplies now log pending) :
    Tells schema marker trees supplies [.passes supplies] [.passed log 0]
      (Watched.proceed enter schema marker (fun pass ↦ trees (pass + 1)) now (.blocked pending)
        batches)
      (proceed schema marker (fun pass ↦ trees (pass + 1)) now (.blocked pending) batches) := by
  induction batches generalizing trees supplies now documents log pending with
  | nil =>
    refine ⟨[], fun past ↦ ?_, ?_⟩
    · rw [Watched.proceed, proceed_blocked_nil, run_pure, List.append_nil]
    · exact Unfolds.stopped hpass hunsettled (.waiting hmissed)
  | cons batch rest ih =>
    have hnext := h.next batch
    cases hunready : (now.applyAll batch).2.unready pending with
    | cons handle others =>
      rw [hunready] at hnext
      have hstay := hnext.missed List.mem_cons_self
      apply batch_tells (resume_of_unready hunready) (run_resume_of_unready hunready)
      rw [await]
      split
      · exact ih hpass hunsettled hmissed hnext
      · exact tells_finished (Unfolds.stopped hpass hunsettled (.abandoned hstay)) rest
    | nil =>
      have harrived : ∀ handle ∈ log.pending,
          ((now.applyAll batch).2.value? handle).isSome := by
        intro handle hmem
        have hready := hnext.arrived handle hmem
        simpa [hunready] using hready
      obtain ⟨deeds, hrun, hunfolds⟩ :=
        attempt_tells (fun pass ↦ trees (pass + 1)) _ fun _ _ hpass hunsettled hmissed ↦
          ih hpass hunsettled hmissed (Awaits.start (now.applyAll batch).2 _)
      refine batch_tells (resume_of_ready hunready) (run_resume_of_ready hunready)
        ⟨deeds, hrun, ?_⟩
      exact Unfolds.again hpass hunsettled hmissed harrived hnext.kept hunfolds

/-- The run that is written down is the run, and its journal unfolds from the first pass on. -/
theorem runTrees_unfolds (schema : Schema) (marker : String) (trees : ℕ → Node)
    (supplies : Supplies) (batches : List (List SupplyAction)) :
    ∃ deeds, (runTreesJournaled schema marker trees supplies batches).run [] =
        (runTrees schema marker trees supplies batches, deeds) ∧
      Unfolds schema marker trees supplies deeds
        (passEvents (runTrees schema marker trees supplies batches).events)
        (runTrees schema marker trees supplies batches).outcome := by
  obtain ⟨deeds, hrun, hunfolds⟩ := attempt_tells trees supplies
    fun _ log (hpass : Compose.pass ⟨schema, marker, supplies⟩ (trees 0) = _) hunsettled hmissed ↦
      blocked_tells batches hpass hunsettled hmissed (Awaits.start supplies log)
  refine ⟨passDeeds schema marker (trees 0) supplies ++ deeds, ?_, ?_⟩
  · rw [runTreesJournaled, Watched.runTrees, runTrees_eq, run_bind (run_attempt supplies [])]
    dsimp only
    rw [run_bind (hrun _), run_pure, List.nil_append]
  · exact hunfolds

end Settle
end ManifestTree
