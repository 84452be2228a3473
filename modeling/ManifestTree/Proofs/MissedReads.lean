import ManifestTree.Proofs.RunEndings

/-!
# Documents in spite of missed reads

A run gives documents away after a pass in which no component gave up. That pass may still have
missed values: a component that is told of a missing value and goes on without it leaves its handle
behind in the log, and the run does not wait for it. Nothing is left behind exactly when every
component of the tree gives up on a missing value; only then have the documents all their values.
-/

namespace ManifestTree

/-! ## Giving up and missing -/

theorem Script.GivesUp.suspended_pos {supplies : Supplies} (owner : String) :
    ∀ script : Script, script.GivesUp supplies → 0 < (script.logged supplies owner).suspended
  | .suspend, _ => Nat.one_pos
  | .read handle next, h => by
    have hnext := suspended_pos owner (next (supplies.value? handle)) h
    rw [Script.logged]
    exact Nat.add_pos_right _ hnext
  | .require message check next, h => by
    have hnext := suspended_pos owner next h
    rw [Script.logged]
    exact Nat.add_pos_right _ hnext

namespace PassLog

/-- Nothing is missed in a stretch of a pass in which no component gives up. -/
def MissesNothing (log : PassLog) : Prop := log.suspended = 0 → log.pending = []

theorem MissesNothing.append {log more : PassLog} (h : log.MissesNothing)
    (hmore : more.MissesNothing) : (log.append more).MissesNothing := by
  intro hsuspended
  obtain ⟨hlog, hrest⟩ := Nat.add_eq_zero_iff.mp hsuspended
  exact List.append_eq_nil_iff.mpr ⟨h hlog, hmore hrest⟩

end PassLog

mutual

/-- Where every component gives up on a missing value, whatever is missed makes one give up. -/
theorem Node.Strict.missesNothing {supplies : Supplies} : ∀ node : Node,
    node.Strict supplies → (node.logged supplies).MissesNothing
  | .fragment children, h => Node.AllStrict.missesNothing children h
  | .element _ _ _ children, h => Node.AllStrict.missesNothing children h
  | .literal _ _ _ children, h => Node.AllStrict.missesNothing children h
  | .transform _ children, h => Node.AllStrict.missesNothing children h
  | .component name script, h =>
    PassLog.MissesNothing.append (fun _ ↦ rfl) (Script.Strict.missesNothing name script h)

theorem Node.AllStrict.missesNothing {supplies : Supplies} : ∀ nodes : List Node,
    Node.AllStrict supplies nodes → (Node.allLogged supplies nodes).MissesNothing
  | [], _ => fun _ ↦ rfl
  | node :: rest, h =>
    (Node.Strict.missesNothing node h.1).append (Node.AllStrict.missesNothing rest h.2)

theorem Script.Strict.missesNothing {supplies : Supplies} (owner : String) :
    ∀ script : Script, script.Strict supplies → (script.logged supplies owner).MissesNothing
  | .yield node, h => Node.Strict.missesNothing node h
  | .suspend, _ => fun _ ↦ rfl
  | .read handle next, h => by
    have hnext := Script.Strict.missesNothing owner (next (supplies.value? handle)) h.2
    rw [Script.logged]
    cases hvalue : supplies.value? handle with
    | none =>
      intro hsuspended
      have hgiven := Script.GivesUp.suspended_pos owner (next none) (h.1 hvalue)
      have hzero := (Nat.add_eq_zero_iff.mp hsuspended).2
      omega
    | some value =>
      rw [hvalue] at hnext
      exact PassLog.MissesNothing.append (fun _ ↦ rfl) hnext
  | .require message check next, h =>
    PassLog.MissesNothing.append (fun _ ↦ rfl) (Script.Strict.missesNothing owner next h)

end

mutual

/-- Where nothing is missed, no component has a missing value to give up on. -/
theorem Node.strict_of_pending_eq_nil {supplies : Supplies} : ∀ node : Node,
    (node.logged supplies).pending = [] → node.Strict supplies
  | .fragment children, h => Node.allStrict_of_pending_eq_nil children h
  | .element _ _ _ children, h => Node.allStrict_of_pending_eq_nil children h
  | .literal _ _ _ children, h => Node.allStrict_of_pending_eq_nil children h
  | .transform _ children, h => Node.allStrict_of_pending_eq_nil children h
  | .component name script, h => Script.strict_of_pending_eq_nil name script h

theorem Node.allStrict_of_pending_eq_nil {supplies : Supplies} : ∀ nodes : List Node,
    (Node.allLogged supplies nodes).pending = [] → Node.AllStrict supplies nodes
  | [], _ => trivial
  | node :: rest, h => by
    obtain ⟨hfirst, hrest⟩ := List.append_eq_nil_iff.mp h
    exact ⟨Node.strict_of_pending_eq_nil node hfirst, Node.allStrict_of_pending_eq_nil rest hrest⟩

theorem Script.strict_of_pending_eq_nil {supplies : Supplies} (owner : String) :
    ∀ script : Script, (script.logged supplies owner).pending = [] → script.Strict supplies
  | .yield node, h => Node.strict_of_pending_eq_nil node h
  | .suspend, _ => trivial
  | .read handle next, h => by
    rw [Script.logged] at h
    obtain ⟨hread, hnext⟩ := List.append_eq_nil_iff.mp h
    refine ⟨fun hnone ↦ ?_, Script.strict_of_pending_eq_nil owner _ hnext⟩
    rw [hnone] at hread
    cases hread
  | .require message check next, h => Script.strict_of_pending_eq_nil owner next h

end

/-- A pass in which no component gave up missed nothing exactly when its tree is strict. -/
theorem Compose.pending_eq_nil_iff {context : Context} {tree : Node} {documents : List Json}
    {log : PassLog} (hpass : pass context tree = (.ok documents, log))
    (hsuspended : log.suspended = 0) : log.pending = [] ↔ tree.Strict context.supplies := by
  rw [pass_logged hpass] at hsuspended ⊢
  constructor
  · exact Node.strict_of_pending_eq_nil tree
  · intro hstrict
    exact Node.Strict.missesNothing tree hstrict hsuspended

namespace Settle

/-! ## The last pass of a run with documents -/

variable {schema : Schema} {marker : String} {tree : Node} {trees : ℕ → Node}
  {supplies : Supplies} {batches : List (List SupplyAction)} {documents : List Json}

/-- Documents come from a settled pass, and nothing happens after it. -/
theorem Ends.of_documents {last final : Supplies} {outcome : Outcome}
    (h : Ends schema marker tree last final outcome) (houtcome : outcome = .documents documents) :
    final = last ∧ ∃ log, Compose.pass ⟨schema, marker, last⟩ tree = (.ok documents, log) ∧
      Compose.isSettled log := by
  cases h with
  | failed hpass => cases houtcome
  | unsettled hpass hunsettled hpending => cases houtcome
  | abandoned hstands hclosed => cases houtcome
  | waiting hstands hopen => cases houtcome
  | @judged composed log hpass hsettled =>
    refine ⟨rfl, log, ?_, hsettled⟩
    cases hfinal : Compose.finalize last composed log with
    | error failure =>
      rw [hfinal] at houtcome
      cases houtcome
    | ok result =>
      rw [hfinal] at houtcome
      cases houtcome
      rw [hpass, finalize_eq_ok hfinal]

/-- A run that ends with documents made them in its last pass, which has the tree of its number. No
component of this tree gave up, and nothing was missed exactly when each of them gives up on a value
that is missing. -/
theorem runTrees_missing_iff
    (h : (runTrees schema marker trees supplies batches).outcome = .documents documents) :
    let run := runTrees schema marker trees supplies batches
    ∃ (course : Course) (final : ℕ) (log : PassLog),
      course.batches = batches ∧ run.supplies = course.lastSupplies supplies ∧
      (passEvents run.events).length = final + 1 ∧
      Compose.pass ⟨schema, marker, run.supplies⟩ (trees final) = (.ok documents, log) ∧
      (passEvents run.events).getLast? = some (.passed log log.requirements.length) ∧
      log.suspended = 0 ∧
      (log.pending = [] ↔ (trees final).Strict run.supplies) := by
  intro run
  obtain ⟨course, final, hbatches, hlength, hends⟩ :=
    runTrees_endsAfter schema marker trees supplies batches
  obtain ⟨hfinal, log, hpass, hsettled⟩ := hends.ends.of_documents h
  have hlast := hends.lastPass
  rw [← hfinal] at hpass hlast
  have hsuspended : log.suspended = 0 := beq_iff_eq.mp hsettled
  have hjudged : judgedAfter (.ok documents) log = log.requirements := if_pos hsettled
  rw [event_attempt hpass, hjudged] at hlast
  exact ⟨course, final, log, hbatches, hfinal, hlength, hpass, hlast, hsuspended,
    Compose.pending_eq_nil_iff hpass hsuspended⟩

/-- A run that ends with documents made them in its last pass, in which no component gave up. That
pass missed no value exactly when each of its components gives up on a value that is missing; of a
component that goes on without it, the run takes no notice. -/
theorem documents_missing_iff
    (h : (runBatches schema marker tree supplies batches).outcome = .documents documents) :
    let run := runBatches schema marker tree supplies batches
    ∃ (course : Course) (log : PassLog),
      course.batches = batches ∧ run.supplies = course.lastSupplies supplies ∧
      Compose.pass ⟨schema, marker, run.supplies⟩ tree = (.ok documents, log) ∧
      (passEvents run.events).getLast? = some (.passed log log.requirements.length) ∧
      log.suspended = 0 ∧
      (log.pending = [] ↔ tree.Strict run.supplies) := by
  intro run
  obtain ⟨course, final, log, hbatches, hfinal, -, hlast⟩ := runTrees_missing_iff h
  exact ⟨course, log, hbatches, hfinal, hlast⟩

/-- A component that awaits its image is waited for, and its last pass misses nothing. -/
theorem documents_missing_iff_awaited :
    let image : Handle := ⟨"image", "image"⟩
    let tree : Node := .component "web" (.await image fun value ↦
      .yield (.element ⟨"Pod"⟩ [("image", value)] none []))
    let supplies : Supplies := [(image, ⟨none, true⟩)]
    let documents : List Json := [.object [("image", .string "nginx")]]
    let run := runBatches default "@" tree supplies [[.give image (.string "nginx")]]
    run.outcome = .documents documents ∧ tree.Strict run.supplies ∧
      ∃ log, Compose.pass ⟨default, "@", run.supplies⟩ tree = (.ok documents, log) ∧
        log.pending = [] := by
  intro image tree supplies documents run
  have hdocuments : run.outcome = .documents documents := rfl
  have hstrict : tree.Strict run.supplies := ⟨fun _ ↦ trivial, trivial⟩
  obtain ⟨_, log, _, _, hpass, _, _, hmissing⟩ := documents_missing_iff hdocuments
  exact ⟨hdocuments, hstrict, log, hpass, hmissing.mpr hstrict⟩

/-- A component that only looks for its host and does not mind that there is none yet: the run gives
its document away at once, although the host was missed and somebody can still give it. -/
theorem documents_while_pending :
    let host : Handle := ⟨"host", "host"⟩
    let tree : Node := .component "web" (.read host fun _ ↦
      .yield (.element ⟨"Pod"⟩ [] none []))
    let supplies : Supplies := [(host, ⟨none, true⟩)]
    let run := runBatches default "@" tree supplies []
    run.outcome = .documents [.object []] ∧ run.supplies.isOpen host ∧
      (Compose.pass ⟨default, "@", run.supplies⟩ tree).2.pending = [host] :=
  ⟨rfl, rfl, rfl⟩

end Settle
end ManifestTree
