import ManifestTree.Proofs.Judging
import ManifestTree.Proofs.PassFailures
import ManifestTree.Proofs.RunEndings

/-!
# What a failed run tells

Every failure of a run is true of its last pass. An abandoned handle was read there without success,
it never had a value, its giver is gone, and whatever was missed before it has arrived. A run is
called unsettled when components gave up although nothing was missed. Any other failure is that of
the pass itself, or the report on the requirements of a settled pass. Values and withdrawals may
come in any order while the run waits; a value that came first is never taken back by a withdrawal.
-/

namespace ManifestTree

namespace Supplies

/-! ## Handles whose giver is gone -/

/-- Under the actions the handle never gets a value, and its giver is gone in the end. -/
structure Lost (start : Supplies) (actions : List SupplyAction) (handle : Handle) : Prop where
  never : ∀ front, front <+: actions → (start.applyAll front).2.value? handle = none
  gone : ¬ start.isOpen handle ∨ ∃ front back, actions = front ++ .withdraw handle :: back ∧
    (start.applyAll front).2.isOpen handle

theorem isOpen_insert (supplies : Supplies) (handle other : Handle) (supply : Supply) :
    isOpen (supplies.insert handle supply) other =
      if handle = other then supply.isOpen else supplies.isOpen other := by
  unfold isOpen
  rw [Association.get?_insert]
  by_cases h : handle = other
  · rw [if_pos h, if_pos h]
  · rw [if_neg h, if_neg h]

/-- Only by withdrawing does a giver go. -/
theorem eq_withdraw_of_apply {supplies : Supplies} {action : SupplyAction} {handle : Handle}
    (hopen : supplies.isOpen handle) (hclosed : ¬ (supplies.apply action).2.isOpen handle) :
    action = .withdraw handle := by
  cases action with
  | give other value =>
    rw [apply] at hclosed
    split at hclosed
    · rw [isOpen_insert] at hclosed
      split at hclosed
      · exact absurd rfl hclosed
      · exact absurd hopen hclosed
    · exact absurd hopen hclosed
  | withdraw other =>
    rw [apply] at hclosed
    split at hclosed
    · rw [isOpen_insert] at hclosed
      split at hclosed
      · next heq => rw [heq]
      · exact absurd hopen hclosed
    · exact absurd hopen hclosed

theorem exists_withdraw {start : Supplies} {actions : List SupplyAction} {handle : Handle}
    (hopen : start.isOpen handle) (hclosed : ¬ (start.applyAll actions).2.isOpen handle) :
    ∃ front back, actions = front ++ .withdraw handle :: back ∧
      (start.applyAll front).2.isOpen handle := by
  induction actions generalizing start with
  | nil => exact absurd hopen hclosed
  | cons action rest ih =>
    by_cases hnext : (start.apply action).2.isOpen handle
    · obtain ⟨front, back, hrest, hfront⟩ := ih hnext hclosed
      exact ⟨action :: front, back, congrArg (action :: ·) hrest, hfront⟩
    · exact ⟨[], rest, congrArg (· :: rest) (eq_withdraw_of_apply hopen hnext), hopen⟩

/-- A handle without a value and a giver in the end is lost: a value would have stayed. -/
theorem lost_of_applyAll {start : Supplies} {actions : List SupplyAction} {handle : Handle}
    (hmissing : (start.applyAll actions).2.value? handle = none)
    (hclosed : ¬ (start.applyAll actions).2.isOpen handle) : start.Lost actions handle where
  never := by
    rintro front ⟨back, rfl⟩
    have hkept := keptIn_applyAll (start.applyAll front).2 back handle
    rw [← applyAll_append, hmissing] at hkept
    cases hvalue : (start.applyAll front).2.value? handle with
    | none => rfl
    | some value =>
      rw [hvalue] at hkept
      cases hkept rfl
  gone := by
    by_cases hopen : start.isOpen handle
    · exact Or.inr (exists_withdraw hopen hclosed)
    · exact Or.inl hopen

end Supplies

namespace Settle

/-! ## Failures and the last pass -/

/-- What a failure of a run says about its course and its last pass, whose result and log are
given. -/
structure Truthful (start : Supplies) (course : Course) (result : Except Failure (List Json))
    (log : PassLog) (failure : Failure) : Prop where
  /-- An abandoned handle was missed by the pass and is lost; all that was missed before it has
  arrived. -/
  abandoned : ∀ label, failure = .abandoned label → (∃ documents, result = .ok documents) ∧
    ∃ front handle back, log.pending = front ++ handle :: back ∧ handle.label = label ∧
      start.Lost course.actions handle ∧
      ∀ earlier ∈ front, ((course.finalSupplies start).value? earlier).isSome
  /-- An unsettled pass has components that gave up, as many as said, and missed nothing. -/
  unsettled : ∀ count, failure = .unsettled count → (∃ documents, result = .ok documents) ∧
    log.suspended = count ∧ 0 < count ∧ log.pending = []
  /-- Any other failure is the pass's own, or it reports the requirements of a settled pass that do
  not hold. -/
  other : (∀ label, failure ≠ .abandoned label) → (∀ count, failure ≠ .unsettled count) →
    (result = .error failure ∧ (failure.IsWriting ∨ failure.IsPlacement)) ∨
    ((∃ documents, result = .ok documents) ∧ log.suspended = 0 ∧
      let violations := Compose.violations (course.lastSupplies start) log.requirements
      violations ≠ [] ∧ failure = .requirements violations)

namespace Truthful

variable {schema : Schema} {marker : String} {tree : Node} {start : Supplies} {course : Course}
  {log : PassLog} {documents : List Json}

theorem of_failed {failure : Failure} (h : failure.IsWriting ∨ failure.IsPlacement) :
    Truthful start course (.error failure) log failure where
  abandoned := by
    rintro label rfl
    rcases h with h | h <;> cases h
  unsettled := by
    rintro count rfl
    rcases h with h | h <;> cases h
  other := fun _ _ ↦ Or.inl ⟨rfl, h⟩

theorem of_judged {failure : Failure} (hsettled : Compose.isSettled log)
    (h : Outcome.ofExcept (Compose.finalize (course.lastSupplies start) documents log) =
      .failed failure) : Truthful start course (.ok documents) log failure := by
  rw [ofExcept_finalize hsettled] at h
  split at h
  · cases h
  · next hviolated =>
    cases h
    refine ⟨by simp, by simp, fun _ _ ↦ Or.inr ?_⟩
    refine ⟨⟨documents, rfl⟩, beq_iff_eq.mp hsettled, ?_, rfl⟩
    exact fun hnone ↦ hviolated ((Compose.violations_eq_nil_iff _ _).mp hnone)

theorem of_unsettled (hunsettled : ¬ Compose.isSettled log) (hpending : log.pending = []) :
    Truthful start course (.ok documents) log (.unsettled log.suspended) where
  abandoned := by simp
  unsettled := by
    intro count hcount
    cases hcount
    have hne : log.suspended ≠ 0 := fun hzero ↦ hunsettled (beq_iff_eq.mpr hzero)
    exact ⟨⟨documents, rfl⟩, rfl, Nat.pos_of_ne_zero hne, hpending⟩
  other := fun _ hne ↦ absurd rfl (hne log.suspended)

theorem of_abandoned {handle : Handle} {rest : List Handle}
    (hstands : StandsAt schema marker tree (course.lastSupplies start)
      (course.finalSupplies start) log handle rest)
    (hclosed : ¬ (course.finalSupplies start).isOpen handle) :
    Truthful start course (.ok documents) log (.abandoned handle.label) where
  abandoned := by
    intro label hlabel
    cases hlabel
    obtain ⟨front, hpending, hfront⟩ := hstands.reached
    have hlost := Supplies.lost_of_applyAll hstands.missing hclosed
    exact ⟨⟨documents, rfl⟩, front, handle, rest, hpending, rfl, hlost, hfront⟩
  unsettled := by simp
  other := fun hne _ ↦ absurd rfl (hne handle.label)

end Truthful

variable {schema : Schema} {marker : String} {tree : Node} {trees : ℕ → Node}
  {supplies : Supplies} {batches : List (List SupplyAction)} {failure : Failure}

theorem Ends.truthful {start final : Supplies} {course : Course} {outcome : Outcome}
    (h : Ends schema marker tree (course.lastSupplies start) final outcome)
    (hfinal : final = course.finalSupplies start) (houtcome : outcome = .failed failure) :
    ∃ result log,
      Compose.pass ⟨schema, marker, course.lastSupplies start⟩ tree = (result, log) ∧
      Truthful start course result log failure := by
  cases h with
  | failed hpass =>
    cases houtcome
    refine ⟨_, _, hpass, Truthful.of_failed ?_⟩
    exact (Compose.pass_eq_error hpass).imp_right (Node.Misplaces.isPlacement tree)
  | judged hpass hsettled => exact ⟨_, _, hpass, Truthful.of_judged hsettled houtcome⟩
  | unsettled hpass hunsettled hpending =>
    cases houtcome
    exact ⟨_, _, hpass, Truthful.of_unsettled hunsettled hpending⟩
  | abandoned hstands hclosed =>
    cases houtcome
    obtain ⟨documents, hpass, -⟩ := hstands.unsettled
    rw [hfinal] at hstands hclosed
    exact ⟨_, _, hpass, Truthful.of_abandoned hstands hclosed⟩
  | waiting hstands hopen => cases houtcome

/-- Every failure of a run is true of its last pass, which has the tree of its number. -/
theorem runTrees_truthful
    (h : (runTrees schema marker trees supplies batches).outcome = .failed failure) :
    let run := runTrees schema marker trees supplies batches
    ∃ (course : Course) (final : ℕ) (result : Except Failure (List Json)) (log : PassLog),
      course.batches = batches ∧ run.supplies = course.finalSupplies supplies ∧
      (passEvents run.events).length = final + 1 ∧
      Compose.pass ⟨schema, marker, course.lastSupplies supplies⟩ (trees final) = (result, log) ∧
      (passEvents run.events).getLast? = some (.passed log (judged result log)) ∧
      Truthful supplies course result log failure := by
  intro run
  obtain ⟨course, final, hbatches, hlength, hends⟩ :=
    runTrees_endsAfter schema marker trees supplies batches
  obtain ⟨result, log, hpass, htruthful⟩ := hends.ends.truthful hends.supplies_eq h
  have hlast := hends.lastPass
  rw [event_attempt hpass, ← judged_eq_length] at hlast
  exact ⟨course, final, result, log, hbatches, hends.supplies_eq, hlength, hpass, hlast, htruthful⟩

/-- Every failure of a run is true of its last pass: what the run calls abandoned is lost, what it
calls unsettled gave up without missing anything, and all else is the failure of the pass or the
requirements that do not hold. -/
theorem failure_truthful
    (h : (runBatches schema marker tree supplies batches).outcome = .failed failure) :
    let run := runBatches schema marker tree supplies batches
    ∃ (course : Course) (result : Except Failure (List Json)) (log : PassLog),
      course.batches = batches ∧ run.supplies = course.finalSupplies supplies ∧
      Compose.pass ⟨schema, marker, course.lastSupplies supplies⟩ tree = (result, log) ∧
      (passEvents run.events).getLast? = some (.passed log (judged result log)) ∧
      Truthful supplies course result log failure := by
  intro run
  obtain ⟨course, final, result, log, hbatches, hsupplies, -, hlast⟩ :=
    runTrees_truthful h
  exact ⟨course, result, log, hbatches, hsupplies, hlast⟩

/-- Two components await a value each. The giver of the image withdraws after giving it, which does
no harm; that of the host withdraws without having given anything. -/
theorem failure_truthful_withdrawn :
    let image : Handle := ⟨"image", "image"⟩
    let host : Handle := ⟨"host", "host"⟩
    let pod (handle : Handle) : Node := .component "pod" (.await handle fun value ↦
      .yield (.element ⟨"Pod"⟩ [("value", value)] none []))
    let supplies : Supplies := [(image, ⟨none, true⟩), (host, ⟨none, true⟩)]
    let run := runBatches default "@" (.fragment [pod image, pod host]) supplies
      [[.give image (.string "nginx"), .withdraw image], [.withdraw host]]
    run.outcome = .failed (.abandoned "host") ∧ run.supplies.value? image = some (.string "nginx") ∧
      ∃ (course : Course) (log : PassLog) (handle : Handle),
        handle ∈ log.pending ∧ handle.label = "host" ∧ supplies.Lost course.actions handle := by
  intro image host pod supplies run
  have hfailed : run.outcome = .failed (.abandoned "host") := rfl
  obtain ⟨course, result, log, _, _, _, _, htruthful⟩ := failure_truthful hfailed
  obtain ⟨_, front, handle, back, hpending, hlabel, hlost, _⟩ := htruthful.abandoned "host" rfl
  refine ⟨hfailed, rfl, course, log, handle, ?_, hlabel, hlost⟩
  rw [hpending]
  exact List.mem_append_right front List.mem_cons_self

end Settle
end ManifestTree
