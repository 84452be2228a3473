import ManifestTree.Proofs.Progress

/-!
# How runs end

A run ends in one of five ways, and each is told by its last pass and by what arrived after it. The
pass failed; or it settled and was finalized; or it did not settle and missed nothing; or the run
came to a handle that the pass missed and that still has no value, with everything missed before it
there by now, and it either gives up on this handle or waits for it. The batches before the last
pass led to its supplies, those after it to the supplies at the end.
-/

namespace ManifestTree

/-! ## What a pass misses has no value -/

mutual

/-- A pass misses only handles that have no value. -/
theorem Node.value?_of_mem_pending (supplies : Supplies) : ∀ (node : Node) {handle : Handle},
    handle ∈ (node.logged supplies).pending → supplies.value? handle = none
  | .fragment children, _, h => Node.value?_of_mem_allPending supplies children h
  | .element _ _ _ children, _, h => Node.value?_of_mem_allPending supplies children h
  | .literal _ _ _ children, _, h => Node.value?_of_mem_allPending supplies children h
  | .transform _ children, _, h => Node.value?_of_mem_allPending supplies children h
  | .component name script, _, h => script.value?_of_mem_pending supplies name h

theorem Node.value?_of_mem_allPending (supplies : Supplies) :
    ∀ (nodes : List Node) {handle : Handle},
      handle ∈ (Node.allLogged supplies nodes).pending → supplies.value? handle = none
  | [], _, h => by cases h
  | node :: rest, _, h => by
    rcases List.mem_append.mp h with hfirst | hrest
    · exact node.value?_of_mem_pending supplies hfirst
    · exact Node.value?_of_mem_allPending supplies rest hrest

theorem Script.value?_of_mem_pending (supplies : Supplies) (owner : String) :
    ∀ (script : Script) {handle : Handle},
      handle ∈ (script.logged supplies owner).pending → supplies.value? handle = none
  | .yield node, _, h => node.value?_of_mem_pending supplies h
  | .suspend, _, h => by cases h
  | .read handle next, other, h => by
    rw [Script.logged] at h
    rcases List.mem_append.mp h with hfirst | hrest
    · split at hfirst
      · next hnone =>
        rw [List.mem_singleton.mp hfirst]
        exact Option.isNone_iff_eq_none.mp hnone
      · cases hfirst
    · exact (next (supplies.value? handle)).value?_of_mem_pending supplies owner hrest
  | .require message check next, _, h => next.value?_of_mem_pending supplies owner h

end

theorem Compose.value?_of_mem_pending {context : Context} {tree : Node} {documents : List Json}
    {log : PassLog} (hpass : pass context tree = (.ok documents, log)) {handle : Handle}
    (hmem : handle ∈ log.pending) : context.supplies.value? handle = none := by
  rw [pass_logged hpass] at hmem
  exact tree.value?_of_mem_pending context.supplies hmem

/-! ## Supplies between passes -/

namespace Supplies

theorem applyAll_append (supplies : Supplies) (first second : List SupplyAction) :
    (supplies.applyAll (first ++ second)).2 =
      ((supplies.applyAll first).2.applyAll second).2 := by
  induction first generalizing supplies with
  | nil => rfl
  | cons action rest ih => exact ih (supplies.apply action).2

/-- Awaiting passes over handles that have their value and stops at one that has none. -/
theorem unready_eq_cons {supplies : Supplies} {pending others : List Handle} {handle : Handle}
    (h : supplies.unready pending = handle :: others) :
    supplies.value? handle = none ∧ ∃ ready, pending = ready ++ handle :: others ∧
      ∀ earlier ∈ ready, (supplies.value? earlier).isSome := by
  constructor
  · have hhead := List.head?_dropWhile_not
      (fun handle ↦ (supplies.value? handle).isSome) pending
    unfold unready at h
    rw [h] at hhead
    simpa using hhead
  · refine ⟨pending.takeWhile fun handle ↦ (supplies.value? handle).isSome, ?_, ?_⟩
    · rw [← h]
      exact List.takeWhile_append_dropWhile.symm
    · intro earlier hmem
      have hsome := List.mem_takeWhile_imp hmem
      exact hsome

end Supplies

namespace Settle

/-! ## The ways in which a run ends -/

/-- Having made its last pass with some supplies, a run stands at a handle with these supplies now:
the pass did not settle, it missed the handle, which has no value yet, and all that it missed
before has arrived. -/
structure StandsAt (schema : Schema) (marker : String) (tree : Node) (last now : Supplies)
    (log : PassLog) (handle : Handle) (rest : List Handle) : Prop where
  unsettled : ∃ documents, Compose.pass ⟨schema, marker, last⟩ tree = (.ok documents, log) ∧
    ¬ Compose.isSettled log
  reached : ∃ front, log.pending = front ++ handle :: rest ∧
    ∀ earlier ∈ front, (now.value? earlier).isSome
  missing : now.value? handle = none

/-- How a run ends that made its last pass with the first supplies and has the second ones now. -/
inductive Ends (schema : Schema) (marker : String) (tree : Node) (last : Supplies) :
    Supplies → Outcome → Prop where
  | failed {failure : Failure} {log : PassLog}
    (hpass : Compose.pass ⟨schema, marker, last⟩ tree = (.error failure, log)) :
    Ends schema marker tree last last (.failed failure)
  | judged {documents : List Json} {log : PassLog}
    (hpass : Compose.pass ⟨schema, marker, last⟩ tree = (.ok documents, log))
    (hsettled : Compose.isSettled log) :
    Ends schema marker tree last last (Outcome.ofExcept (Compose.finalize last documents log))
  /-- The pass does not settle and has missed nothing that might arrive. -/
  | unsettled {documents : List Json} {log : PassLog}
    (hpass : Compose.pass ⟨schema, marker, last⟩ tree = (.ok documents, log))
    (hunsettled : ¬ Compose.isSettled log) (hpending : log.pending = []) :
    Ends schema marker tree last last (.failed (.unsettled log.suspended))
  /-- Nobody can give the value of the handle that the run stands at. -/
  | abandoned {now : Supplies} {log : PassLog} {handle : Handle} {rest : List Handle}
    (hstands : StandsAt schema marker tree last now log handle rest)
    (hclosed : ¬ now.isOpen handle) :
    Ends schema marker tree last now (.failed (.abandoned handle.label))
  | waiting {now : Supplies} {log : PassLog} {handle : Handle} {rest : List Handle}
    (hstands : StandsAt schema marker tree last now log handle rest)
    (hopen : now.isOpen handle) :
    Ends schema marker tree last now .waiting

/-- A phase that a run reaches after its last pass. -/
inductive Reaches (schema : Schema) (marker : String) (tree : Node) (last now : Supplies) :
    Phase → Prop where
  | finished {outcome : Outcome} (h : Ends schema marker tree last now outcome) :
    Reaches schema marker tree last now (.finished outcome)
  | blocked {log : PassLog} {handle : Handle} {rest : List Handle}
    (hstands : StandsAt schema marker tree last now log handle rest)
    (hopen : now.isOpen handle) :
    Reaches schema marker tree last now (.blocked (handle :: rest))

variable {schema : Schema} {marker : String} {tree : Node} {last now : Supplies}

theorem await_reaches {log : PassLog} {handle : Handle} {rest : List Handle}
    (h : StandsAt schema marker tree last now log handle rest) :
    Reaches schema marker tree last now (await now handle rest) := by
  rw [await]
  split
  · next hopen => exact Reaches.blocked h hopen
  · next hclosed => exact Reaches.finished (Ends.abandoned h hclosed)

theorem attempt_reaches (schema : Schema) (marker : String) (tree : Node) (supplies : Supplies) :
    Reaches schema marker tree supplies supplies (attempt schema marker tree supplies).2 := by
  rcases hpass : Compose.pass ⟨schema, marker, supplies⟩ tree with ⟨failure | documents, log⟩
  · rw [attempt_of_pass hpass]
    exact Reaches.finished (Ends.failed hpass)
  · rw [attempt_of_pass hpass, afterPass_ok]
    by_cases hsettled : Compose.isSettled log
    · rw [if_pos hsettled]
      exact Reaches.finished (Ends.judged hpass hsettled)
    · rw [if_neg hsettled]
      cases hpending : log.pending with
      | nil => exact Reaches.finished (Ends.unsettled hpass hsettled hpending)
      | cons handle rest =>
        have hmem : handle ∈ log.pending := by
          rw [hpending]
          exact List.mem_cons_self
        apply await_reaches
        exact {
          unsettled := ⟨documents, hpass, hsettled⟩
          reached := ⟨[], hpending, by simp⟩
          missing := Compose.value?_of_mem_pending hpass hmem }

/-- A handle that is still missing after a batch is where the run stands then. -/
theorem StandsAt.next {log : PassLog} {handle other : Handle} {rest others : List Handle}
    (h : StandsAt schema marker tree last now log handle rest) (batch : List SupplyAction)
    (hunready : (now.applyAll batch).2.unready (handle :: rest) = other :: others) :
    StandsAt schema marker tree last (now.applyAll batch).2 log other others := by
  obtain ⟨hmissing, ready, hrest, hready⟩ := Supplies.unready_eq_cons hunready
  obtain ⟨front, hpending, hfront⟩ := h.reached
  refine ⟨h.unsettled, ⟨front ++ ready, ?_, ?_⟩, hmissing⟩
  · rw [hpending, hrest, List.append_assoc]
  · intro earlier hmem
    rcases List.mem_append.mp hmem with hearly | hlate
    · exact Supplies.keptIn_applyAll now batch earlier (hfront earlier hearly)
    · exact hready earlier hlate

/-! ## Whole runs -/

/-- The batches of a run up to its last pass, those that it waited through afterwards, and those
that it did not need. -/
structure Course where
  past : List (List SupplyAction)
  waited : List (List SupplyAction)
  unused : List (List SupplyAction)

namespace Course

def batches (course : Course) : List (List SupplyAction) :=
  course.past ++ course.waited ++ course.unused

def actions (course : Course) : List SupplyAction := (course.past ++ course.waited).flatten

def lastSupplies (course : Course) (start : Supplies) : Supplies :=
  (start.applyAll course.past.flatten).2

def finalSupplies (course : Course) (start : Supplies) : Supplies :=
  (start.applyAll course.actions).2

theorem finalSupplies_eq (course : Course) (start : Supplies) :
    course.finalSupplies start =
      ((course.lastSupplies start).applyAll course.waited.flatten).2 := by
  rw [finalSupplies, actions, List.flatten_append, Supplies.applyAll_append]
  rfl

end Course

/-- The last pass of a run and its end, as its course tells them. -/
structure EndsAfter (schema : Schema) (marker : String) (tree : Node) (start : Supplies)
    (course : Course) (run : Run) : Prop where
  supplies_eq : run.supplies = course.finalSupplies start
  lastPass : (passEvents run.events).getLast? =
    some (attempt schema marker tree (course.lastSupplies start)).1
  ends : Ends schema marker tree (course.lastSupplies start) run.supplies run.outcome

/-- What a run has come to: the batches behind it led to its last pass, which is the one of this
number, and to the supplies now. -/
structure OnCourse (schema : Schema) (marker : String) (trees : ℕ → Node) (start : Supplies)
    (past waited : List (List SupplyAction)) (shown : List Event) (number : ℕ)
    (last now : Supplies) (phase : Phase) : Prop where
  last_eq : last = (start.applyAll past.flatten).2
  now_eq : now = (last.applyAll waited.flatten).2
  shown_length : (passEvents shown).length = number + 1
  shown : (passEvents shown).getLast? = some (attempt schema marker (trees number) last).1
  reaches : Reaches schema marker (trees number) last now phase

namespace OnCourse

variable {trees : ℕ → Node} {start : Supplies} {past waited : List (List SupplyAction)}
  {shown : List Event} {number : ℕ}

theorem attempted (shown : List Event) (hshown : (passEvents shown).length = number)
    (h : last = (start.applyAll past.flatten).2) :
    OnCourse schema marker trees start past []
      (shown ++ [(attempt schema marker (trees number) last).1]) number last last
      (attempt schema marker (trees number) last).2 where
  last_eq := h
  now_eq := rfl
  shown_length := by
    rw [passEvents, List.filter_append, List.length_append]
    exact congrArg (· + 1) hshown
  shown := by
    rw [passEvents, List.filter_append]
    exact List.getLast?_concat
  reaches := attempt_reaches schema marker (trees number) last

/-- One batch further the run stands at a later handle, or it has made a new pass. -/
theorem next {pending : List Handle}
    (h : OnCourse schema marker trees start past waited shown number last now (.blocked pending))
    (batch : List SupplyAction) :
    let later := now.applyAll batch
    let resumed := resume schema marker (trees (number + 1)) later.2 pending
    ∃ (past' waited' : List (List SupplyAction)) (last' : Supplies),
      past' ++ waited' = past ++ waited ++ [batch] ∧
      OnCourse schema marker trees start past' waited'
        (shown ++ later.1.map Event.waited ++ resumed.1) (number + resumed.1.length) last' later.2
        resumed.2 := by
  intro later resumed
  have hshown : passEvents (shown ++ later.1.map Event.waited) = passEvents shown := by
    simp [passEvents, Event.isPass]
  have hnow : later.2 = (last.applyAll (waited ++ [batch]).flatten).2 := by
    rw [List.flatten_append, Supplies.applyAll_append, ← h.now_eq, List.flatten_singleton]
  cases hunready : later.2.unready pending with
  | cons handle others =>
    have hresumed : resumed = ([], await later.2 handle others) := resume_of_unready hunready
    rw [hresumed]
    refine ⟨past, waited ++ [batch], last, (List.append_assoc _ _ _).symm, ?_⟩
    refine ⟨h.last_eq, hnow, ?_, ?_, ?_⟩
    · rw [List.append_nil, hshown]
      exact h.shown_length
    · rw [List.append_nil, hshown]
      exact h.shown
    · cases h.reaches with
      | blocked hstands hopen => exact await_reaches (hstands.next batch hunready)
  | nil =>
    have hresumed : resumed = _ := resume_of_ready hunready
    rw [hresumed]
    refine ⟨past ++ waited ++ [batch], [], later.2, List.append_nil _, ?_⟩
    apply attempted
    · rw [hshown]
      exact h.shown_length
    · rw [hnow, h.last_eq, ← Supplies.applyAll_append, ← List.flatten_append, List.append_assoc]

/-- A run that is over ends after the batches behind it. -/
theorem endsAfter {outcome : Outcome} (unused : List (List SupplyAction)) {phase : Phase}
    (h : OnCourse schema marker trees start past waited shown number last now phase)
    (hends : Ends schema marker (trees number) last now outcome) :
    EndsAfter schema marker (trees number) start ⟨past, waited, unused⟩
      ⟨shown, outcome, now⟩ where
  supplies_eq := by
    rw [Course.finalSupplies_eq, h.now_eq, h.last_eq]
    rfl
  lastPass := by
    rw [h.shown, h.last_eq]
    rfl
  ends := by
    rw [h.last_eq] at hends
    exact hends

end OnCourse

/-- From what it has come to, a run goes on to an end that its last pass tells. The induction is on
the batches to come. -/
theorem proceed_endsAfter {trees : ℕ → Node} {start : Supplies}
    (batches : List (List SupplyAction)) {past waited : List (List SupplyAction)}
    {shown : List Event} {number : ℕ} {phase : Phase}
    (h : OnCourse schema marker trees start past waited shown number last now phase) :
    let run := proceed schema marker (fun pass ↦ trees (number + 1 + pass)) now phase batches
    ∃ (course : Course) (final : ℕ), course.batches = past ++ waited ++ batches ∧
      (passEvents (shown ++ run.events)).length = final + 1 ∧
      EndsAfter schema marker (trees final) start course
        { run with events := shown ++ run.events } := by
  induction batches generalizing past waited shown number last now phase with
  | nil =>
    refine ⟨⟨past, waited, []⟩, number, rfl, ?_⟩
    cases h.reaches with
    | finished hends =>
      rw [proceed_finished, List.append_nil]
      exact ⟨h.shown_length, h.endsAfter [] hends⟩
    | blocked hstands hopen =>
      rw [proceed_blocked_nil, List.append_nil]
      exact ⟨h.shown_length, h.endsAfter [] (Ends.waiting hstands hopen)⟩
  | cons batch rest ih =>
    cases h.reaches with
    | finished hends =>
      refine ⟨⟨past, waited, batch :: rest⟩, number, rfl, ?_⟩
      rw [proceed_finished, List.append_nil]
      exact ⟨h.shown_length, h.endsAfter (batch :: rest) hends⟩
    | @blocked log handle others hstands hopen =>
      obtain ⟨past', waited', last', hbatches, hnext⟩ := h.next batch
      rcases hresumed : resume schema marker (trees (number + 1)) (now.applyAll batch).2
        (handle :: others) with ⟨events, phase⟩
      rw [hresumed] at hnext
      obtain ⟨course, final, hcourse, hlength, hends⟩ := ih hnext
      have hlater : (fun pass ↦ trees (number + events.length + 1 + pass)) =
          fun pass ↦ trees (number + 1 + (pass + events.length)) := by
        funext pass
        congr 1
        omega
      rw [hlater] at hlength hends
      refine ⟨course, final, ?_, ?_⟩
      · rw [hcourse, hbatches, List.append_assoc]
        rfl
      · rw [proceed_blocked_cons hresumed]
        simpa only [List.append_assoc] using And.intro hlength hends

/-- Every run ends as its last pass says, after a part of the batches; this pass has the tree of its
number. -/
theorem runTrees_endsAfter (schema : Schema) (marker : String) (trees : ℕ → Node)
    (supplies : Supplies) (batches : List (List SupplyAction)) :
    let run := runTrees schema marker trees supplies batches
    ∃ (course : Course) (final : ℕ), course.batches = batches ∧
      (passEvents run.events).length = final + 1 ∧
      EndsAfter schema marker (trees final) supplies course run := by
  intro run
  have hstart : OnCourse schema marker trees supplies [] []
      [(attempt schema marker (trees 0) supplies).1] 0 supplies supplies
      (attempt schema marker (trees 0) supplies).2 :=
    OnCourse.attempted [] rfl rfl
  have hlater : (fun pass ↦ trees (0 + 1 + pass)) = fun pass ↦ trees (pass + 1) := by
    funext pass
    rw [Nat.zero_add, Nat.add_comm]
  have hends := proceed_endsAfter batches hstart
  rw [hlater] at hends
  exact hends

end Settle
end ManifestTree
