import ManifestTree.Decompose
import ManifestTree.Proofs.KeyPath

/-!
# What the visits of relations take out

Visiting an object for one relation after another takes values out at paths that are apart from
each other, provided that no relation to a single value leads to a proper prefix of an earlier one's
path. A relation to an array may: where an earlier one has gone through, no array is left to take.
What is left lacks exactly the values taken, and each of them is what the object had at the path. A
relation that finds nothing, or a value of the wrong form, changes nothing and is passed over here;
its warning is not looked at.
-/

namespace ManifestTree.Decompose

open Json

/-! ## Key paths -/

theorem exists_keys_of_keysOnly {path : FieldPath} (h : path.keysOnly) :
    ∃ names : List String, path = .ofKeys names := by
  rcases path with ⟨steps⟩
  induction steps with
  | nil => exact ⟨[], rfl⟩
  | cons step rest ih =>
    cases step with
    | index position => simp [FieldPath.keysOnly] at h
    | key name =>
      obtain ⟨names, hnames⟩ := ih (by simpa [FieldPath.keysOnly] using h)
      refine ⟨name :: names, ?_⟩
      rw [FieldPath.ofKeys, FieldPath.mk.injEq] at hnames
      rw [hnames]
      rfl

/-! ## One visit -/

/-- A value that a relation takes out of its parent. -/
structure Taking where
  relation : Relation
  value : Json

namespace Taking

def path (taking : Taking) : List Step := taking.relation.path.steps

/-- The value has the form that the relation asks for. -/
structure Proper (taking : Taking) : Prop where
  keys : taking.relation.path.keysOnly
  nonempty : taking.path ≠ []
  filled : taking.value.isVacant = false
  formed : problem? taking.relation taking.value = none
  wellFormed : taking.value.WellFormed

end Taking

theorem visit_eq_taken {relation : Relation} {members : Members} {objects : List Members}
    {left : Json} (hkeys : relation.path.keysOnly) (hwf : (object members).WellFormed)
    (h : visit relation (object members) = .taken objects left) :
    ∃ value fields, objects = objectsOf value ∧ left = object fields ∧
      (object fields).WellFormed ∧ Taking.Proper ⟨relation, value⟩ ∧
      getSteps? relation.path.steps (object members) = some value ∧
      TakenOut relation.path.steps (object members) (object fields) := by
  obtain ⟨names, hnames⟩ := exists_keys_of_keysOnly hkeys
  unfold visit at h
  cases hget : (object members).get? relation.path with
  | none =>
    rw [hget] at h
    cases h
  | some value =>
    rw [hget] at h
    dsimp only at h
    cases hvacant : value.isVacant with
    | true =>
      rw [hvacant] at h
      cases h
    | false =>
      rw [hvacant, if_neg Bool.false_ne_true] at h
      cases hproblem : problem? relation value with
      | some kind =>
        rw [hproblem] at h
        cases h
      | none =>
        rw [hproblem] at h
        dsimp only at h
        by_cases hempty : names = []
        · subst hempty
          rw [hnames] at h
          cases h
        · have hvalue : getSteps? (names.map Step.key) (object members) = some value := by
            rw [hnames] at hget
            exact hget
          obtain ⟨fields, htake, hfields, htaken⟩ := takeSteps_keys names hempty hwf hvalue
          have htakes : (object members).take relation.path = some (value, object fields) := by
            rw [hnames]
            exact htake
          rw [htakes] at h
          cases h
          have hproper : Taking.Proper ⟨relation, value⟩ :=
            { keys := hkeys
              nonempty := by simpa [Taking.path, hnames, FieldPath.ofKeys] using hempty
              filled := hvacant
              formed := hproblem
              wellFormed := hwf.inside hvalue }
          rw [hnames]
          exact ⟨value, fields, rfl, rfl, hfields, hproper, hvalue, htaken⟩

/-! ## All visits -/

def NoProperPrefix (path other : List Step) : Prop := path <+: other → path = other

def childrenOf (relations : Relations) (nested : Nested) (takings : List Taking) : List Outline :=
  takings.flatMap fun taking ↦ (elements nested taking.relation.child
    (relations.selector taking.relation) (objectsOf taking.value)).1

/-- What is left of a whole that lacked some paths before and lacks the values taken now. -/
structure LeftOver (visiting : List Relation) (paths : List (List Step)) (whole : Json)
    (takings : List Taking) (left : Members) : Prop where
  wellFormed : (object left).WellFormed
  lacks : Lacks (paths ++ takings.map Taking.path) (object left) whole
  apart : (paths ++ takings.map Taking.path).Pairwise Apart
  proper : ∀ taking ∈ takings, taking.relation ∈ visiting ∧ taking.Proper ∧
    HoldsAt taking.path taking.value whole

namespace LeftOver

variable {visiting : List Relation} {paths : List (List Step)} {whole : Json}
  {takings : List Taking} {left : Members}

/-- A relation that takes nothing makes no difference. -/
theorem skip (h : LeftOver visiting paths whole takings left) (relation : Relation) :
    LeftOver (relation :: visiting) paths whole takings left where
  wellFormed := h.wellFormed
  lacks := h.lacks
  apart := h.apart
  proper := by
    intro taking hmem
    obtain ⟨hrelation, hrest⟩ := h.proper taking hmem
    exact ⟨List.mem_cons_of_mem _ hrelation, hrest⟩

/-- A value taken first, and the others from what it leaves. -/
theorem cons {taking : Taking}
    (h : LeftOver visiting (paths ++ [taking.path]) whole takings left) (hproper : taking.Proper)
    (hholds : HoldsAt taking.path taking.value whole) :
    LeftOver (taking.relation :: visiting) paths whole (taking :: takings) left where
  wellFormed := h.wellFormed
  lacks := by
    have hlacks := h.lacks
    rw [List.append_assoc] at hlacks
    exact hlacks
  apart := by
    have hapart := h.apart
    rw [List.append_assoc] at hapart
    exact hapart
  proper := by
    intro other hmem
    rcases List.mem_cons.mp hmem with rfl | hmem
    · exact ⟨List.mem_cons_self, hproper, hholds⟩
    · exact (h.skip taking.relation).proper other hmem

end LeftOver

/-- A path that a value was taken from. -/
structure Passed (whole : Json) (path : List Step) : Prop where
  nonempty : path ≠ []
  keys : ∃ names : List String, path = names.map Step.key
  found : ∃ value, getSteps? path whole = some value

/-- Where a relation finds a value of the right form, no earlier value was taken from inside it,
whether the relation is to a single value, by the order of the relations, or to an array, since an
object is on the way to the earlier value. -/
theorem Taking.Proper.noProperPrefix {taking : Taking} (h : taking.Proper) {members : Members}
    {whole : Json} {paths : List (List Step)} (hlacks : Lacks paths (object members) whole)
    (hget : getSteps? taking.path (object members) = some taking.value) {other : List Step}
    (hother : Passed whole other)
    (hbefore : taking.relation.isMany = false → NoProperPrefix taking.path other) :
    NoProperPrefix taking.path other := by
  cases hmany : taking.relation.isMany with
  | false => exact hbefore hmany
  | true =>
    rintro ⟨back, rfl⟩
    obtain ⟨names, hnames⟩ := hother.keys
    obtain ⟨value, hvalue⟩ := hother.found
    by_contra hne
    have hback : back ≠ [] := by
      rintro rfl
      exact hne (List.append_nil _).symm
    rw [hnames] at hvalue
    have hobject := hlacks.openTo hvalue taking.path back taking.value hnames.symm hback hget
    have hformed := h.formed
    unfold problem? at hformed
    rw [hmany] at hformed
    cases htaken : taking.value with
    | object members =>
      rw [htaken] at hformed
      cases hformed
    | _ =>
      rw [htaken] at hobject
      cases hobject

/-- The visits of several relations take proper values out at paths apart from each other. -/
theorem visitAll_leftOver (relations : Relations) (nested : Nested) {whole : Json}
    {visiting : List Relation} {members : Members} {paths : List (List Step)}
    (hwf : (object members).WellFormed) (hlacks : Lacks paths (object members) whole)
    (hapart : paths.Pairwise Apart) (hpaths : ∀ path ∈ paths, Passed whole path)
    (hkeys : ∀ relation ∈ visiting, relation.path.keysOnly)
    (horder : visiting.Pairwise fun earlier later ↦
      later.isMany = false → NoProperPrefix later.path.steps earlier.path.steps)
    (hbefore : ∀ path ∈ paths, ∀ relation ∈ visiting, relation.isMany = false →
      NoProperPrefix relation.path.steps path) :
    ∃ takings left findings, visitAll relations nested (object members) visiting =
        (childrenOf relations nested takings, object left, findings) ∧
      LeftOver visiting paths whole takings left := by
  induction visiting generalizing members paths with
  | nil =>
    exact ⟨[], members, Findings.empty, rfl, hwf, by simpa using hlacks, by simpa using hapart,
      by simp⟩
  | cons relation rest ih =>
    rw [List.pairwise_cons] at horder
    have hkeys' : ∀ other ∈ rest, other.path.keysOnly := fun other hmem ↦
      hkeys other (List.mem_cons_of_mem _ hmem)
    have hbefore' : ∀ path ∈ paths, ∀ other ∈ rest, other.isMany = false →
        NoProperPrefix other.path.steps path := fun path hpath other hmem ↦
      hbefore path hpath other (List.mem_cons_of_mem _ hmem)
    rw [visitAll]
    cases hvisit : visit relation (object members) with
    | nothing =>
      obtain ⟨takings, left, findings, heq, hleft⟩ :=
        ih hwf hlacks hapart hpaths hkeys' horder.2 hbefore'
      exact ⟨takings, left, findings, heq, hleft.skip relation⟩
    | kept warning =>
      obtain ⟨takings, left, findings, heq, hleft⟩ :=
        ih hwf hlacks hapart hpaths hkeys' horder.2 hbefore'
      refine ⟨takings, left, Findings.append ⟨[], [warning]⟩ findings, ?_, hleft.skip relation⟩
      dsimp only
      rw [heq]
    | taken objects left =>
      obtain ⟨value, fields, rfl, rfl, hfields, hproper, hget, htaken⟩ :=
        visit_eq_taken (hkeys relation List.mem_cons_self) hwf hvisit
      have hbeside : ∀ other ∈ paths, Apart other relation.path.steps :=
        hlacks.apart hget fun other hmem ↦ hproper.noProperPrefix hlacks hget (hpaths other hmem)
          (hbefore other hmem relation List.mem_cons_self)
      have hless := hlacks.takeOut htaken (fun other hmem ↦ (hpaths other hmem).nonempty) hbeside
      have hholds := hlacks.holdsAt hget hproper.nonempty hbeside
      have hpairwise : (paths ++ [relation.path.steps]).Pairwise Apart := by
        simpa [List.pairwise_append, hapart] using hbeside
      have hpassed : Passed whole relation.path.steps := by
        obtain ⟨names, hnames⟩ := exists_keys_of_keysOnly hproper.keys
        obtain ⟨found, hfound, -⟩ := hholds
        exact ⟨hproper.nonempty, ⟨names, congrArg FieldPath.steps hnames⟩, found, hfound⟩
      have hpaths' : ∀ path ∈ paths ++ [relation.path.steps], Passed whole path := by
        intro path hmem
        rcases List.mem_append.mp hmem with hmem | hmem
        · exact hpaths path hmem
        · exact List.mem_singleton.mp hmem ▸ hpassed
      have hafter : ∀ path ∈ paths ++ [relation.path.steps], ∀ other ∈ rest,
          other.isMany = false → NoProperPrefix other.path.steps path := by
        intro path hmem other hother
        rcases List.mem_append.mp hmem with hmem | hmem
        · exact hbefore' path hmem other hother
        · rw [List.mem_singleton.mp hmem]
          exact horder.1 other hother
      obtain ⟨takings, last, findings, heq, hlast⟩ :=
        ih hfields hless hpairwise hpaths' hkeys' horder.2 hafter
      let met := elements nested relation.child (relations.selector relation) (objectsOf value)
      refine ⟨⟨relation, value⟩ :: takings, last, Findings.append met.2 findings, ?_,
        LeftOver.cons hlast hproper hholds⟩
      dsimp only
      rw [heq]
      rfl

end ManifestTree.Decompose
