import Mathlib.Data.Finset.Card
import ManifestTree.Proofs.PassLogs
import ManifestTree.Proofs.RunJournal

/-!
# Runs make progress

A run never repeats a pass for nothing. A pass that did not settle and left something to wait for is
followed by another one only when every handle that it missed has a value, and no value is lost
while the run waits. So the set of handles without a value shrinks from pass to pass, and a run
makes at most one pass more than handles had no value when it started. Components may do whatever
they like: read a handle twice, go on without its value, or give up without reading anything.
-/

namespace ManifestTree

/-! ## Handles that components read -/

mutual

/-- Whatever values arrive, the components of the tree read these handles only. -/
def Node.ReadsWithin (handles : Finset Handle) : Node → Prop
  | .fragment children => Node.AllReadWithin handles children
  | .element _ _ _ children => Node.AllReadWithin handles children
  | .literal _ _ _ children => Node.AllReadWithin handles children
  | .transform _ children => Node.AllReadWithin handles children
  | .component _ script => script.ReadsWithin handles

/-- The components of the nodes read these handles only. -/
def Node.AllReadWithin (handles : Finset Handle) : List Node → Prop
  | [] => True
  | node :: rest => node.ReadsWithin handles ∧ Node.AllReadWithin handles rest

/-- The script and the trees that it may yield read these handles only. -/
def Script.ReadsWithin (handles : Finset Handle) : Script → Prop
  | .yield node => node.ReadsWithin handles
  | .suspend => True
  | .read handle next => handle ∈ handles ∧ ∀ value, (next value).ReadsWithin handles
  | .require _ _ next => next.ReadsWithin handles

end

namespace Supplies

def missing (supplies : Supplies) (handles : Finset Handle) : Finset Handle :=
  handles.filter fun handle ↦ (supplies.value? handle).isNone

theorem mem_missing {supplies : Supplies} {handles : Finset Handle} {handle : Handle} :
    handle ∈ supplies.missing handles ↔ handle ∈ handles ∧ (supplies.value? handle).isNone :=
  Finset.mem_filter

/-- Where values persist, nothing is missing that was not missing before. -/
theorem KeptIn.missing_subset {early late : Supplies} (h : early.KeptIn late)
    (handles : Finset Handle) : late.missing handles ⊆ early.missing handles := by
  intro handle hmem
  obtain ⟨hhandle, hnone⟩ := mem_missing.mp hmem
  refine mem_missing.mpr ⟨hhandle, ?_⟩
  cases hearly : early.value? handle with
  | none => rfl
  | some value =>
    have hlate := h handle (by rw [hearly]; rfl)
    rw [Option.isNone_iff_eq_none.mp hnone] at hlate
    cases hlate

/-- One missing handle that gets its value makes the difference. -/
theorem KeptIn.missing_ssubset {early late : Supplies} (h : early.KeptIn late)
    {handles : Finset Handle} {handle : Handle} (hmissing : handle ∈ early.missing handles)
    (harrived : (late.value? handle).isSome) :
    late.missing handles ⊂ early.missing handles := by
  refine (Finset.ssubset_iff_of_subset (h.missing_subset handles)).mpr ⟨handle, hmissing, ?_⟩
  intro hmem
  have hnone := (mem_missing.mp hmem).2
  rw [Option.isNone_iff_eq_none.mp hnone] at harrived
  cases harrived

end Supplies

/-! ## Handles that a pass misses -/

namespace PassLog

/-- Every handle that the log lacks is among the given ones. -/
def PendingIn (handles : Finset Handle) (log : PassLog) : Prop :=
  ∀ handle ∈ log.pending, handle ∈ handles

variable {handles : Finset Handle}

theorem PendingIn.of_nil {log : PassLog} (h : log.pending = []) : log.PendingIn handles := by
  simp [PendingIn, h]

theorem PendingIn.append {log more : PassLog} (h : log.PendingIn handles)
    (hmore : more.PendingIn handles) : (log.append more).PendingIn handles := by
  intro handle hmem
  rcases List.mem_append.mp hmem with hmem | hmem
  · exact h handle hmem
  · exact hmore handle hmem

theorem PendingIn.lacking {handle : Handle} (h : handle ∈ handles) :
    (lacking handle).PendingIn handles := by
  intro other hmem
  rw [List.mem_singleton.mp hmem]
  exact h

end PassLog

section Misses

variable {handles : Finset Handle}

mutual

/-- A pass misses only handles that are read and have no value. -/
theorem Node.logged_pendingIn (supplies : Supplies) : ∀ node : Node, node.ReadsWithin handles →
    (node.logged supplies).PendingIn (supplies.missing handles)
  | .fragment children, h => Node.allLogged_pendingIn supplies children h
  | .element _ _ _ children, h => Node.allLogged_pendingIn supplies children h
  | .literal _ _ _ children, h => Node.allLogged_pendingIn supplies children h
  | .transform _ children, h => Node.allLogged_pendingIn supplies children h
  | .component name script, h =>
    (PassLog.PendingIn.of_nil rfl).append (script.logged_pendingIn supplies name h)

theorem Node.allLogged_pendingIn (supplies : Supplies) : ∀ nodes : List Node,
    Node.AllReadWithin handles nodes →
    (Node.allLogged supplies nodes).PendingIn (supplies.missing handles)
  | [], _ => PassLog.PendingIn.of_nil rfl
  | node :: rest, h =>
    (node.logged_pendingIn supplies h.1).append (Node.allLogged_pendingIn supplies rest h.2)

theorem Script.logged_pendingIn (supplies : Supplies) (owner : String) : ∀ script : Script,
    script.ReadsWithin handles →
    (script.logged supplies owner).PendingIn (supplies.missing handles)
  | .yield node, h => node.logged_pendingIn supplies h
  | .suspend, _ => PassLog.PendingIn.of_nil rfl
  | .read handle next, h => by
    rw [Script.logged]
    refine PassLog.PendingIn.append ?_ ((next (supplies.value? handle)).logged_pendingIn supplies
      owner (h.2 _))
    split
    · next hmissing => exact PassLog.PendingIn.lacking (Supplies.mem_missing.mpr ⟨h.1, hmissing⟩)
    · exact PassLog.PendingIn.of_nil rfl
  | .require message check next, h =>
    (PassLog.PendingIn.of_nil rfl).append (next.logged_pendingIn supplies owner h)

end

end Misses

namespace Settle

/-! ## From pass to pass -/

def passSupplies (deeds : List Deed) : List Supplies :=
  deeds.filterMap fun deed ↦ match deed with
    | .passes supplies => some supplies
    | .judges _ => none

theorem passSupplies_cons (supplies : Supplies) (deeds : List Deed) :
    passSupplies (.passes supplies :: deeds) = supplies :: passSupplies deeds := rfl

theorem passSupplies_judges (requirements : List Requirement) :
    passSupplies (requirements.map .judges) = [] := by
  simp [passSupplies]

/-- How the supplies of two passes in a row differ: all that the earlier one missed has arrived, and
less is missing altogether. -/
def Advances (schema : Schema) (marker : String) (tree : Node) (handles : Finset Handle)
    (earlier later : Supplies) : Prop :=
  (∀ handle ∈ (Compose.pass ⟨schema, marker, earlier⟩ tree).2.pending,
      (later.value? handle).isSome) ∧
    later.missing handles ⊂ earlier.missing handles

variable {schema : Schema} {marker : String} {tree : Node} {trees : ℕ → Node}
  {supplies : Supplies} {deeds : List Deed} {events : List Event} {outcome : Outcome}
  {handles : Finset Handle}

theorem event_attempt {result : Except Failure (List Json)} {log : PassLog}
    (h : Compose.pass ⟨schema, marker, supplies⟩ tree = (result, log)) :
    (attempt schema marker tree supplies).1 = .passed log (judgedAfter result log).length := by
  rw [attempt_of_pass h, ← judged_eq_length]

theorem judgedAfter_of_unsettled (documents : List Json) {log : PassLog}
    (h : ¬ Compose.isSettled log) : judgedAfter (.ok documents) log = [] := by
  rw [judgedAfter, if_neg h]

/-- Every two passes in a row advance, the earlier one being that of its tree. -/
def AllAdvance (schema : Schema) (marker : String) (trees : ℕ → Node) (handles : Finset Handle)
    (passes : List Supplies) : Prop :=
  ∀ number earlier later, passes[number]? = some earlier → passes[number + 1]? = some later →
    Advances schema marker (trees number) handles earlier later

theorem allAdvance_singleton (supplies : Supplies) :
    AllAdvance schema marker trees handles [supplies] := by
  intro number earlier later _ hlater
  cases hlater

theorem AllAdvance.cons {later : Supplies} {rest : List Supplies}
    (h : AllAdvance schema marker (fun pass ↦ trees (pass + 1)) handles (later :: rest))
    (hfirst : Advances schema marker (trees 0) handles supplies later) :
    AllAdvance schema marker trees handles (supplies :: later :: rest) := by
  intro number earlier next hearlier hnext
  cases number with
  | zero =>
    cases hearlier
    cases hnext
    exact hfirst
  | succ number => exact h number earlier next hearlier hnext

/-- Passes of one tree advance in a chain. -/
theorem AllAdvance.isChain {passes : List Supplies}
    (h : AllAdvance schema marker (fun _ ↦ tree) handles passes) :
    passes.IsChain (Advances schema marker tree handles) := by
  rw [List.isChain_iff_getElem]
  intro number hnumber
  exact h number _ _ (List.getElem?_eq_getElem _) (List.getElem?_eq_getElem hnumber)

namespace Unfolds

/-- The first pass is the one with the supplies at the start. -/
theorem head?_passSupplies (h : Unfolds schema marker trees supplies deeds events outcome) :
    (passSupplies deeds).head? = some supplies := by
  cases h <;> rfl

/-- What is seen of the passes is what a pass of their tree with their supplies shows. -/
theorem events_eq (h : Unfolds schema marker trees supplies deeds events outcome) :
    events = (passSupplies deeds).mapIdx fun pass supplies ↦
      (attempt schema marker (trees pass) supplies).1 := by
  induction h with
  | failed hpass =>
    rw [passSupplies_cons, List.mapIdx_cons, event_attempt hpass]
    rfl
  | judged hpass hsettled =>
    rw [passSupplies_cons, List.mapIdx_cons, event_attempt hpass, passSupplies_judges, judgedAfter,
      if_pos hsettled]
    rfl
  | stopped hpass hunsettled hstops =>
    rw [passSupplies_cons, List.mapIdx_cons, event_attempt hpass,
      judgedAfter_of_unsettled _ hunsettled]
    rfl
  | again hpass hunsettled hpending harrived hkept hrest ih =>
    rw [passSupplies_cons, List.mapIdx_cons, event_attempt hpass,
      judgedAfter_of_unsettled _ hunsettled, ← ih]
    rfl

/-- A pass that is repeated has missed something, which is there in the next pass. -/
theorem advances (hreads : tree.ReadsWithin handles) {later : Supplies} {documents : List Json}
    {log : PassLog} (hpass : Compose.pass ⟨schema, marker, supplies⟩ tree = (.ok documents, log))
    (hpending : log.pending ≠ [])
    (harrived : ∀ handle ∈ log.pending, (later.value? handle).isSome)
    (hkept : supplies.KeptIn later) : Advances schema marker tree handles supplies later := by
  refine ⟨by rw [hpass]; exact harrived, ?_⟩
  obtain ⟨handle, hmem⟩ := List.exists_mem_of_ne_nil _ hpending
  have hmissing : handle ∈ supplies.missing handles := by
    rw [Compose.pass_logged hpass] at hmem
    exact tree.logged_pendingIn supplies hreads handle hmem
  exact hkept.missing_ssubset hmissing (harrived handle hmem)

theorem allAdvance (hreads : ∀ pass, (trees pass).ReadsWithin handles)
    (h : Unfolds schema marker trees supplies deeds events outcome) :
    AllAdvance schema marker trees handles (passSupplies deeds) := by
  induction h with
  | failed hpass => exact allAdvance_singleton _
  | judged hpass hsettled =>
    rw [passSupplies_cons, passSupplies_judges]
    exact allAdvance_singleton _
  | stopped hpass hunsettled hstops => exact allAdvance_singleton _
  | again hpass hunsettled hpending harrived hkept hrest ih =>
    obtain ⟨rest, hlater⟩ := List.head?_eq_some_iff.mp hrest.head?_passSupplies
    have hnext := ih fun pass ↦ hreads (pass + 1)
    rw [hlater] at hnext
    rw [passSupplies_cons, hlater]
    exact hnext.cons (advances (hreads 0) hpass hpending harrived hkept)

/-- Each further pass uses up a handle without a value. -/
theorem length_passSupplies_le (hreads : ∀ pass, (trees pass).ReadsWithin handles)
    (h : Unfolds schema marker trees supplies deeds events outcome) :
    (passSupplies deeds).length ≤ (supplies.missing handles).card + 1 := by
  induction h with
  | failed hpass => exact Nat.le_add_left 1 _
  | judged hpass hsettled =>
    rw [passSupplies_cons, passSupplies_judges]
    exact Nat.le_add_left 1 _
  | stopped hpass hunsettled hstops => exact Nat.le_add_left 1 _
  | @again trees supplies later documents log deeds events outcome hpass hunsettled hpending
      harrived hkept hrest ih =>
    have hcard : (later.missing handles).card < (supplies.missing handles).card :=
      Finset.card_lt_card (advances (hreads 0) hpass hpending harrived hkept).2
    have hlength := ih fun pass ↦ hreads (pass + 1)
    rw [passSupplies_cons, List.length_cons]
    omega

end Unfolds

/-- A run never spins, whatever its components look at in between. Its first pass is made with the
supplies at the start; when another pass is made, every handle that the pass before missed has a
value, and strictly fewer handles have none. So the passes are at most one more than the handles
without a value at the start. -/
theorem runTrees_progresses (hreads : ∀ pass, (trees pass).ReadsWithin handles) (schema : Schema)
    (marker : String) (supplies : Supplies) (batches : List (List SupplyAction)) :
    let run := runTrees schema marker trees supplies batches
    let journaled := (runTreesJournaled schema marker trees supplies batches).run []
    let passes := passSupplies journaled.2
    journaled.1 = run ∧
      passEvents run.events = passes.mapIdx (fun pass supplies ↦
        (attempt schema marker (trees pass) supplies).1) ∧
      passes.head? = some supplies ∧
      AllAdvance schema marker trees handles passes ∧
      (passEvents run.events).length ≤ (supplies.missing handles).card + 1 := by
  intro run journaled passes
  obtain ⟨deeds, hjournal, hunfolds⟩ := runTrees_unfolds schema marker trees supplies batches
  have hjournaled : journaled = (run, deeds) := hjournal
  have hpasses : passes = passSupplies deeds :=
    congrArg (fun journal ↦ passSupplies journal.2) hjournaled
  refine ⟨congrArg Prod.fst hjournaled, ?_, ?_, ?_, ?_⟩
  · rw [hpasses]
    exact hunfolds.events_eq
  · rw [hpasses]
    exact hunfolds.head?_passSupplies
  · rw [hpasses]
    exact hunfolds.allAdvance hreads
  · rw [hunfolds.events_eq, List.length_mapIdx]
    exact hunfolds.length_passSupplies_le hreads

/-- A component that remembers being rendered before: it awaits its image in the first pass and
says in the second one that it was tried again. -/
example :
    let image : Handle := ⟨"image", "image"⟩
    let web (rendered : ℕ) : Node := .component "web" (.await image fun value ↦
      .yield (.element ⟨"Pod"⟩ [("image", value), ("again", .bool (0 < rendered))] none []))
    (runTrees default "@" web [(image, ⟨none, true⟩)] [[.give image (.string "nginx")]]).outcome =
      .documents [.object [("image", .string "nginx"), ("again", .bool true)]] := rfl

/-- A run of one tree never spins. Its first pass is made with the supplies at the start; when
another pass is made, every handle that the pass before missed has a value, and strictly fewer
handles have none. So the passes are at most one more than the handles without a value at the
start. -/
theorem runBatches_progresses (hreads : tree.ReadsWithin handles) (schema : Schema)
    (marker : String) (supplies : Supplies) (batches : List (List SupplyAction)) :
    let run := runBatches schema marker tree supplies batches
    let journaled := (runBatchesJournaled schema marker tree supplies batches).run []
    let passes := passSupplies journaled.2
    journaled.1 = run ∧
      passEvents run.events =
        passes.map (fun supplies ↦ (attempt schema marker tree supplies).1) ∧
      passes.head? = some supplies ∧
      passes.IsChain (Advances schema marker tree handles) ∧
      (passEvents run.events).length ≤ (supplies.missing handles).card + 1 := by
  intro run journaled passes
  obtain ⟨hrun, hevents, hstart, hadvance, hlength⟩ :=
    runTrees_progresses (fun _ ↦ hreads) schema marker supplies batches
  refine ⟨hrun, ?_, hstart, hadvance.isChain, hlength⟩
  exact hevents.trans (List.mapIdx_eq_iff.mpr fun _ ↦ List.getElem?_map)

/-- A component that looks for its image twice and then awaits a host: each value costs one further
pass, three in all. -/
theorem runBatches_progresses_two_handles :
    let image : Handle := ⟨"image", "image"⟩
    let host : Handle := ⟨"host", "host"⟩
    let tree : Node := .component "web" (.read image fun _ ↦ .await image fun value ↦
      .await host fun _ ↦ .yield (.element ⟨"Pod"⟩ [("image", value)] none []))
    let supplies : Supplies := [(image, ⟨none, true⟩), (host, ⟨none, true⟩)]
    let run := runBatches default "@" tree supplies
      [[.give image (.string "nginx")], [.give host (.string "web")]]
    tree.ReadsWithin {image, host} ∧ (supplies.missing {image, host}).card = 2 ∧
      (passEvents run.events).length = 3 ∧
      (passEvents run.events).length ≤ (supplies.missing {image, host}).card + 1 := by
  intro image host tree supplies run
  have hawait (handle : Handle) (hmem : handle ∈ ({image, host} : Finset Handle))
      (next : Json → Script) (hnext : ∀ value, (next value).ReadsWithin {image, host}) :
      (Script.await handle next).ReadsWithin {image, host} := by
    refine ⟨hmem, fun value ↦ ?_⟩
    cases value with
    | none => trivial
    | some value => exact hnext value
  have hreads : tree.ReadsWithin {image, host} := by
    refine ⟨by simp, fun _ ↦ ?_⟩
    exact hawait image (by simp) _ fun _ ↦ hawait host (by simp) _ fun _ ↦ trivial
  have hbound := (runBatches_progresses hreads default "@" supplies
    [[.give image (.string "nginx")], [.give host (.string "web")]]).2.2.2.2
  exact ⟨hreads, rfl, rfl, hbound⟩

end Settle
end ManifestTree
