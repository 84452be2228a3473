import ManifestTree.Proofs.WriterOutcomes

/-!
# What a failed writer leaves

A writer that fails leaves the document as it was, keys in their order, whatever stopped it: an
occupied place, a null, a value of the wrong sort or an index out of bounds. The one exception is a
walk that runs off the document at a missing key and meets an index later. It has created the keys
on its way when the index stops it, and they stay, each inside the one before and the last one
holding null.
-/

namespace ManifestTree.Json

/-- A value under some keys, each in an object of its own. -/
def nested : List String → Json → Json
  | [], value => value
  | name :: rest, value => object [(name, nested rest value)]

/-! ## Walks that fail -/

/-- An action works on every vacant place, and leaves any other place as it was when it fails. -/
structure Action.FailsInPlace {α : Type} (action : Action α) : Prop where
  vacant : ∃ answer, (action none).1 = .ok answer
  unchanged : ∀ found failure, (action (some found)).1 = .error failure →
    (action (some found)).2 = some found

theorem fill_failsInPlace (path : FieldPath) (value : Json) : (fill path value).FailsInPlace where
  vacant := ⟨(), rfl⟩
  unchanged found _ _ := by cases found <;> rfl

theorem addItem_failsInPlace (path : FieldPath) (value : Json) :
    (addItem path value).FailsInPlace where
  vacant := ⟨0, rfl⟩
  unchanged found _ hfailure := by
    cases found with
    | array items => cases hfailure
    | _ => rfl

theorem layOver_failsInPlace (value : Json) : (layOver value).FailsInPlace where
  vacant := ⟨(), rfl⟩
  unchanged _ _ hfailure := by cases hfailure

section Walking

variable {α : Type} {action : Action α} {document found : Json} {path front : FieldPath}
  {failure : Failure}

/-- The keys that lead from a vacant place to an index are created, the last one with null. -/
theorem walk_none_index_leaves (path : FieldPath) (action : Action α) (names : List String)
    (position : Nat) (rest taken : List Step) :
    (walk path action taken (names.map Step.key ++ .index position :: rest) none).2.getD null =
      nested names null := by
  induction names generalizing taken with
  | nil => rfl
  | cons name more ih =>
    have hinner := ih (taken ++ [.key name])
    rw [List.map_cons, List.cons_append, walk, nested, ← hinner]
    rfl

/-- A writer leaves what its walk makes of the value that a front of the path reaches. -/
theorem write_snd_of_reads (action : Action α) {back : List Step} (hdocument : document ≠ null)
    (hreads : document.get? front = some found) (hpath : path.steps = front.steps ++ back) :
    (document.write path action).2 =
      document.replace front ((walk path action front.steps back (some found)).2.getD null) := by
  have hlead : Leads found front.steps document := leads_of_getSteps? hreads
  have hwalk := congrArg Prod.snd (hlead.walk_append path action [] back)
  rw [← hpath, List.nil_append] at hwalk
  rw [write, Place.ofDocument_eq_some hdocument]
  exact hwalk

/-- Where the walk leaves the value that it has reached, the document stays. -/
theorem write_snd_of_stuck {back : List Step} (hdocument : document ≠ null)
    (hreads : document.get? front = some found) (hpath : path.steps = front.steps ++ back)
    (hstuck : (walk path action front.steps back (some found)).2 = some found) :
    (document.write path action).2 = document := by
  have hlead : Leads found front.steps document := leads_of_getSteps? hreads
  rw [write_snd_of_reads action hdocument hreads hpath, hstuck]
  exact hlead.replaceSteps_self

/-! ## Running off the document -/

/-- The walk to a path runs off the document at a missing key, and an index follows that key and
perhaps further ones. -/
structure RunsOff (document : Json) (path front : FieldPath) (name : String)
    (more : List String) : Prop where
  /-- The walk comes to an object, or it starts in the null document. -/
  enterable : ∃ found, document.get? front = some found ∧ document.Enterable front found
  missing : document.get? (front.key name) = none
  leads : ∃ position rest,
    path.steps = (front.join (.ofKeys (name :: more))).steps ++ .index position :: rest

/-- The document with a new key behind the others of an object in it, and further keys inside, the
last one with null. -/
def withKeys (document : Json) (front : FieldPath) (name : String) (more : List String) : Json :=
  document.replace front (object (document.membersAt front ++ [(name, nested more null)]))

variable {name : String} {more : List String}

theorem steps_join_ofKeys_append (front : FieldPath) (name : String) (more : List String)
    (back : List Step) :
    (front.join (.ofKeys (name :: more))).steps ++ back =
      front.steps ++ .key name :: (more.map Step.key ++ back) := by
  rw [FieldPath.join, FieldPath.ofKeys, List.append_assoc]
  rfl

/-- Nothing is found behind a missing key. -/
theorem RunsOff.reachesTo (h : document.RunsOff path front name more)
    (hreads : document.get? front = some found) : document.ReachesTo path front found := by
  obtain ⟨position, rest, hpath⟩ := h.leads
  rw [steps_join_ofKeys_append] at hpath
  have hmissing : getSteps? (front.steps ++ [.key name]) document = none := h.missing
  have hkey : front.steps ++ [.key name] <+: path.steps :=
    ⟨more.map Step.key ++ .index position :: rest, by simp [hpath]⟩
  refine ⟨hreads, hpath ▸ List.prefix_append _ _, fun other hother hsome ↦ ?_⟩
  rcases List.prefix_or_prefix_of_prefix hother hkey with hshort | ⟨behind, hlong⟩
  · rcases List.prefix_concat_iff.mp hshort with hwhole | hwithin
    · rw [Json.get?, hwhole, hmissing] at hsome
      cases hsome
    · exact hwithin
  · rw [Json.get?, ← hlong, getSteps?_append, hmissing] at hsome
    cases hsome

/-- Keys that a walk creates before an index are those at which it runs off. -/
theorem ReachesTo.runsOff (h : document.ReachesTo path front found)
    (henter : document.Enterable front found) {position : Nat} {rest : List Step}
    (hpath : path.steps =
      (front.join (.ofKeys (name :: more))).steps ++ .index position :: rest) :
    document.RunsOff path front name more where
  enterable := ⟨found, h.reads, henter⟩
  missing := by
    have hreads : getSteps? front.steps document = some found := h.reads
    rw [FieldPath.key, Json.get?, getSteps?_append, hreads, Option.bind_some,
      h.stops (hpath.trans (steps_join_ofKeys_append front name more _))]
  leads := ⟨position, rest, hpath⟩

/-- A writer that runs off fails at the index and leaves the keys that it has created. -/
theorem write_of_runsOff (action : Action α) (h : document.RunsOff path front name more) :
    document.write path action =
      (.error (.mismatch (front.join (.ofKeys (name :: more))) .many .null),
        document.withKeys front name more) := by
  obtain ⟨found, hreads, henter⟩ := h.enterable
  obtain ⟨position, rest, hpath⟩ := h.leads
  have hreaches := h.reachesTo hreads
  have hsteps := hpath.trans (steps_join_ofKeys_append front name more _)
  refine Prod.ext (write_fst_of_bars action hreaches
    (.created (List.cons_ne_nil name more) hpath henter)) ?_
  by_cases hdocument : document = null
  · subst hdocument
    obtain ⟨rfl, rfl⟩ := eq_root_of_get?_null hreads
    rw [write, hsteps]
    exact walk_none_index_leaves path action (name :: more) position rest []
  · have hobject : found.isObject := henter.resolve_right fun hnull ↦ hdocument hnull.2
    cases found with
    | object members =>
      have hmissing : Members.get? members name = none := hreaches.get?_eq_none hsteps
      have hinsert (value : Json) :
          Members.insert members name value = members ++ [(name, value)] :=
        Association.insert_of_not_mem value (Association.get?_eq_none_iff.mp hmissing)
      rw [write_snd_of_reads action hdocument hreads hsteps, withKeys, membersAt, hreads, walk,
        hmissing]
      dsimp only [Option.getD_some, Json.members]
      rw [hinsert, walk_none_index_leaves]
    | _ => cases hobject

/-- In the null document a writer creates what keys name, and an index as the first step stops it
before it has created anything. -/
theorem write_null_of_error (haction : action.FailsInPlace)
    (hfailure : (null.write path action).1 = .error failure)
    (hstays : ∀ front name more, ¬ null.RunsOff path front name more) :
    (null.write path action).2 = null := by
  obtain ⟨front, found, hreaches⟩ := exists_reachesTo null path
  obtain ⟨rfl, rfl⟩ := eq_root_of_get?_null hreaches.reads
  rcases keys_or_index path.steps with ⟨names, hpath⟩ | ⟨names, position, rest, hpath⟩
  · have hwrite : (null.write path action).1 = (action none).1 := by
      rw [write, hpath]
      exact walk_none_keys path action names []
    obtain ⟨answer, hvacant⟩ := haction.vacant
    rw [hwrite, hvacant] at hfailure
    cases hfailure
  · cases names with
    | nil =>
      rw [write, hpath]
      rfl
    | cons name more => exact absurd (hreaches.runsOff (Or.inr ⟨rfl, rfl⟩) hpath) (hstays _ _ _)

/-- A writer that fails without running off leaves the document as it was. -/
theorem write_snd_of_error (haction : action.FailsInPlace)
    (hfailure : (document.write path action).1 = .error failure)
    (hstays : ∀ front name more, ¬ document.RunsOff path front name more) :
    (document.write path action).2 = document := by
  by_cases hdocument : document = null
  · subst hdocument
    exact write_null_of_error haction hfailure hstays
  obtain ⟨front, found, hreaches⟩ := exists_reachesTo document path
  have hreads := hreaches.reads
  rcases hreaches.cases with rfl | hcreate | ⟨barring, hbars⟩
  · have hback : front.steps = front.steps ++ [] := (List.append_nil _).symm
    rw [write_fst_of_reads action hdocument hreads hback] at hfailure
    exact write_snd_of_stuck hdocument hreads hback (haction.unchanged found failure hfailure)
  · obtain ⟨answer, hvacant⟩ := haction.vacant
    rw [write_fst_of_canCreate action hreaches hcreate, hvacant] at hfailure
    cases hfailure
  · cases hbars with
    | key hpath henter =>
      refine write_snd_of_stuck hdocument hreads hpath ?_
      cases found with
      | object members => exact absurd (Or.inl rfl) henter
      | _ => rfl
    | index hpath hkind =>
      refine write_snd_of_stuck hdocument hreads hpath ?_
      cases found with
      | array items => exact absurd rfl hkind
      | _ => rfl
    | @created names position rest hnames hpath henter =>
      obtain ⟨name, more, rfl⟩ := List.exists_cons_of_ne_nil hnames
      exact absurd (hreaches.runsOff henter hpath) (hstays front name more)
    | outOfBounds hpath hfound =>
      subst hfound
      refine write_snd_of_stuck hdocument hreads hpath ?_
      rw [walk, hreaches.getElem?_eq_none hpath]

end Walking

/-! ## What is left -/

section Leaving

variable {α : Type} {document : Json} {path : FieldPath}

/-- What a writer leaves when it fails: the document as it was, unless it has run off. -/
structure LeavesOnFailure (document : Json) (path : FieldPath)
    (written : Except Failure α × Json) : Prop where
  unchanged : ∀ failure, written.1 = .error failure →
    (∀ front name more, ¬ document.RunsOff path front name more) → written.2 = document
  /-- Running off it fails, and leaves the document with the keys up to the index. -/
  ranOff : ∀ front name more, document.RunsOff path front name more →
    written = (.error (.mismatch (front.join (.ofKeys (name :: more))) .many .null),
      document.withKeys front name more)
  keyPath : ∀ failure, written.1 = .error failure → path.keysOnly → written.2 = document
  /-- So it does where a value, null or another one, occupies the place. -/
  occupied : ∀ place, written.1 = .error (.occupied place) → written.2 = document
  mismatch : ∀ place expected kind, written.1 = .error (.mismatch place expected kind) →
    (document.get? place).isSome → written.2 = document
  outOfBounds : ∀ text fault, written.1 = .error (.invalidPath text fault) → written.2 = document

/-- Behind the key at which a writer runs off there was nothing. -/
theorem RunsOff.get?_eq_none {front : FieldPath} {name : String} {more : List String}
    (h : document.RunsOff path front name more) :
    document.get? (front.join (.ofKeys (name :: more))) = none := by
  have hsteps : (front.join (.ofKeys (name :: more))).steps =
      (front.key name).steps ++ more.map Step.key := by
    rw [← List.append_nil (front.join _).steps, steps_join_ofKeys_append, FieldPath.key]
    simp
  have hmissing : getSteps? (front.key name).steps document = none := h.missing
  rw [Json.get?, hsteps, getSteps?_append, hmissing, Option.bind_none]

theorem write_leavesOnFailure {action : Action α} (haction : action.FailsInPlace) :
    LeavesOnFailure document path (document.write path action) := by
  have hranOff (front : FieldPath) (name : String) (more : List String)
      (h : document.RunsOff path front name more) := write_of_runsOff action h
  have hunchanged (failure : Failure) (hfailure : (document.write path action).1 = .error failure)
      (hother : ∀ front name more, document.RunsOff path front name more →
        failure ≠ .mismatch (front.join (.ofKeys (name :: more))) .many .null) :
      (document.write path action).2 = document := by
    refine write_snd_of_error haction hfailure fun front name more h ↦ ?_
    rw [hranOff front name more h] at hfailure
    cases hfailure
    exact hother front name more h rfl
  refine ⟨fun failure hfailure ↦ write_snd_of_error haction hfailure, hranOff, ?_, ?_, ?_, ?_⟩
  · intro failure hfailure hkeys
    refine write_snd_of_error haction hfailure fun front name more h ↦ ?_
    obtain ⟨position, rest, hpath⟩ := h.leads
    simp [FieldPath.keysOnly, hpath] at hkeys
  · intro place hfailure
    exact hunchanged _ hfailure fun _ _ _ _ ↦ Failure.noConfusion
  · intro place expected kind hfailure hsome
    refine hunchanged _ hfailure fun front name more h heq ↦ ?_
    cases heq
    rw [h.get?_eq_none] at hsome
    cases hsome
  · intro text fault hfailure
    exact hunchanged _ hfailure fun _ _ _ _ ↦ Failure.noConfusion

/-- A writer that fails leaves no trace, unless it has run off the document at a missing key and
has met an index later: then it leaves the keys up to the index, the last one with null. -/
theorem failed_writes_leave (document : Json) (path : FieldPath) (value : Json) :
    LeavesOnFailure document path (document.set path value) ∧
      LeavesOnFailure document path (document.append path value) ∧
      LeavesOnFailure document path (document.mergeAt path value) :=
  ⟨write_leavesOnFailure (fill_failsInPlace path value),
    write_leavesOnFailure (addItem_failsInPlace path value),
    write_leavesOnFailure (layOver_failsInPlace value)⟩

/-- Setting the first port of a document without ports leaves the key with null behind the kind. -/
example : (object [("kind", string "Pod")]).set ⟨[.key "ports", .index 0]⟩ (bool true) =
    (.error (.mismatch (.ofKeys ["ports"]) .many .null),
      object [("kind", string "Pod"), ("ports", null)]) := rfl

end Leaving

end ManifestTree.Json
