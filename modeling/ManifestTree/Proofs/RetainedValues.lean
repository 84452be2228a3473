import ManifestTree.Proofs.DocumentOrder
import ManifestTree.Proofs.RoundTrip
import ManifestTree.Proofs.Scalars
import ManifestTree.Proofs.TakenValues

/-!
# Reports of values that stay

A relation that finds a value of the wrong form reports it and leaves it where it is. The visits go
on, though, and a later relation may take the reported value out, a part of it, or a value around
it. So every value of the wrong form among an element's own fields was reported, but a report may be
about a value that is gone in the end. Where no relation reaches for what an earlier one may report,
the reports are exactly those that the tree calls for, and no element was made of a reported value
or of a part of it. Relations that lead through indices are left out: taking an item out moves the
ones behind it.
-/

namespace ManifestTree

theorem Association.get?_append {κ ν : Type} [DecidableEq κ] (key : κ)
    (entries more : Association κ ν) :
    get? key (entries ++ more) = (get? key entries).or (get? key more) := by
  induction entries with
  | nil => rfl
  | cons entry rest ih =>
    rw [List.cons_append, get?_cons, get?_cons, ih]
    split <;> rfl

open Json Decompose
open List (Forall₂)

/-! ## Reports read off a tree -/

/-- The report on what a relation under a type finds in a value, if that has the wrong form. -/
def Decompose.report? (type : TypeName) (relation : Relation) (value : Json) : Option Failure :=
  (value.get? relation.path).bind fun found ↦
    if found.isVacant then none else (problem? relation found).map (retainedAs type relation)

namespace Outline

def fieldOf? : Outline → Option (String × Json)
  | literal ⟨[.key name]⟩ (some value) false [] => some (name, value)
  | _ => none

/-- The fields that an element has of its own: those that its properties expand into, and those of
its verbatim literals. -/
def ownFields? (rules : FieldRules) (marker : String) (props : Members) (children : List Outline) :
    Option Members :=
  match rules.expand marker props with
  | .ok fields => some (fields ++ children.filterMap fieldOf?)
  | .error _ => none

/-- The reports that an element's own fields call for, in the order of the relations under its
type. -/
def ownReports (schema : Schema) (marker : String) (type : TypeName) (props : Members)
    (children : List Outline) : List Failure :=
  match ownFields? (schema.rulesOf type) marker props children with
  | some own => (schema.relations.under type).filterMap fun relation ↦
      report? type relation (.object own)
  | none => []

mutual

/-- The reports that the elements of an outline call for. -/
def reports (schema : Schema) (marker : String) : Outline → List Failure
  | fragment children => reportsOfAll schema marker children
  | element type props _ children =>
    ownReports schema marker type props children ++ reportsOfAll schema marker children
  | literal _ _ _ children => reportsOfAll schema marker children

/-- The reports that the elements of several outlines call for. -/
def reportsOfAll (schema : Schema) (marker : String) : List Outline → List Failure
  | [] => []
  | outline :: rest => outline.reports schema marker ++ reportsOfAll schema marker rest

end

end Outline

/-! ## Relations that spare reported values -/

/-- A relation visited later takes nothing away from what an earlier one under the same type may
report. -/
structure Relation.Spares (earlier later : Relation) : Prop where
  same : earlier.path = later.path → earlier.isMany = later.isMany
  /-- Only a relation to an array leads to a value around the earlier one's. -/
  around : later.path.steps <+: earlier.path.steps → later.path ≠ earlier.path → later.isMany
  /-- A relation leads inside the value of an earlier one to a single value only. -/
  inside : earlier.path.steps <+: later.path.steps → earlier.path ≠ later.path →
    earlier.isMany = false

/-- No relation takes away what one before it under the same type may report. -/
def Relations.Sparing (relations : Relations) : Prop :=
  ∀ type, (relations.under type).Pairwise Relation.Spares

/-- What a schema must observe so that what is left of an object can be read off its element. -/
structure Schema.Reportable (schema : Schema) (marker : String) : Prop where
  keys : ∀ type, ∀ relation ∈ schema.relations.under type, relation.path.keysOnly
  /-- Where properties are hoisted, the spec key does not begin with the marker. -/
  unmarkedSpec : ∀ type key, (schema.rulesOf type).specKey = some key →
    (schema.rulesOf type).hoisted? marker key = none

/-! ## The course of the visits -/

namespace Decompose

/-- What a relation did to a value that it found. -/
inductive Deed where
  | kept (relation : Relation) (value : Json) (warning : Failure)
  | taken (relation : Relation) (value : Json)

def Deed.warning? : Deed → Option Failure
  | kept _ _ warning => some warning
  | taken _ _ => none

/-- The objects that children are made of, each with the relation that it was taken for. -/
def Deed.pieces : Deed → List (Relation × Members)
  | kept _ _ _ => []
  | taken relation value => (objectsOf value).map (relation, ·)

/-- What a deed comes to in the end: a reported value stands where it was found, unchanged, and
nothing stands where a value was taken out. -/
def Deed.Shows (left : Json) : Deed → Prop
  | kept relation value _ => left.get? relation.path = some value
  | taken relation _ => left.get? relation.path = none

/-- Relations visit a value one after another, with these deeds, and leave this. -/
inductive Course : Json → List Relation → List Deed → Json → Prop where
  | done (value : Json) : Course value [] [] value
  | nothing {relation : Relation} {rest : List Relation} {value left : Json} {deeds : List Deed} :
    visit relation value = .nothing → Course value rest deeds left →
      Course value (relation :: rest) deeds left
  | kept {relation : Relation} {rest : List Relation} {value found left : Json}
    {warning : Failure} {deeds : List Deed} :
    visit relation value = .kept warning → value.get? relation.path = some found →
      Course value rest deeds left →
      Course value (relation :: rest) (.kept relation found warning :: deeds) left
  | taken {relation : Relation} {rest : List Relation} {value found after left : Json}
    {deeds : List Deed} :
    visit relation value = .taken (objectsOf found) after →
      value.take relation.path = some (found, after) → Course after rest deeds left →
      Course value (relation :: rest) (.taken relation found :: deeds) left

structure Undisturbed (deeds : List Deed) (left : Json) : Prop where
  shows : ∀ deed ∈ deeds, deed.Shows left
  /-- No value was taken out around a reported one or at one of its parts. -/
  apart : ∀ relation value warning other piece, .kept relation value warning ∈ deeds →
    .taken other piece ∈ deeds → ¬ other.path.steps <+: relation.path.steps ∧
      ∀ rest, other.path.steps = relation.path.steps ++ rest → getSteps? rest value = none

/-- How an element comes from an object. Relations visit the object; what they leave makes up the
element's own fields, and the objects that they take out make up its child elements one by one. Each
report that its own fields call for was made, in the order of the relations. Where these spare
what was reported before, no other report was made, and no deed undoes another one. -/
inductive StandsFor (schema : Schema) (marker : String) : TypeName → Members → Outline → Prop where
  /-- An element with its child elements before its verbatim literals. -/
  | element {type : TypeName} {members props left own fields : Members} {tag : Option String}
    {deeds : List Deed} {children : List Outline}
    (hcourse : Course (object members) (schema.relations.under type) deeds (object left))
    (hown : Outline.ownFields? (schema.rulesOf type) marker props
      (children ++ fields.map Outline.verbatim) = some own)
    (hfields : ∀ key, own.get? key = left.get? key)
    (hreports : (Outline.ownReports schema marker type props
      (children ++ fields.map Outline.verbatim)).Sublist (deeds.filterMap Deed.warning?))
    (hspared : (schema.relations.under type).Pairwise Relation.Spares →
      Undisturbed deeds (object left) ∧ deeds.filterMap Deed.warning? =
        Outline.ownReports schema marker type props (children ++ fields.map Outline.verbatim))
    (hchildren : Forall₂ (fun piece child ↦ StandsFor schema marker piece.1.child piece.2 child)
      (deeds.flatMap Deed.pieces) children) :
    StandsFor schema marker type members
      (.element type props tag (children ++ fields.map Outline.verbatim))

end Decompose

/-! ## Taking out beside a report -/

namespace Json

theorem TakesOut.gone {names : List String} {taken value left : Json}
    (h : TakesOut taken (names.map Step.key) value left) (hvalue : value.WellFormed) :
    Json.getSteps? (names.map Step.key) left = none :=
  (takenAt_of_takesOut h hvalue).gone

/-- Taking out puts nothing where nothing was. -/
theorem TakesOut.getSteps?_eq_none {names : List String} {taken value left : Json}
    (h : TakesOut taken (names.map Step.key) value left) (hvalue : value.WellFormed)
    {other : List Step} (hother : Json.getSteps? other value = none) :
    Json.getSteps? other left = none := by
  by_cases hbehind : names.map Step.key <+: other
  · obtain ⟨more, rfl⟩ := hbehind
    rw [getSteps?_append, h.gone hvalue, Option.bind_none]
  · rw [h.getSteps?_of_apart hvalue ⟨hbehind, not_prefix_of_getSteps? hother h.getSteps?⟩, hother]

end Json

namespace Decompose

variable {type : TypeName} {relation earlier later : Relation} {value other taken left : Json}

theorem report?_eq_none_of_get? (h : value.get? relation.path = none) :
    report? type relation value = none := by
  rw [report?, h, Option.bind_none]

theorem report?_congr (h : left.get? relation.path = value.get? relation.path) :
    report? type relation left = report? type relation value := by
  rw [report?, report?, h]

theorem report?_matches (h : value.Matches other) :
    report? type relation value = report? type relation other := by
  have hget := h.get? relation.path
  cases hfirst : value.get? relation.path with
  | none =>
    rw [report?_eq_none_of_get? hfirst, report?_eq_none_of_get? (hget.eq_none_iff.mp hfirst)]
  | some found =>
    obtain ⟨twin, hsecond, hmatches⟩ := hget.exists_right hfirst
    rw [report?, report?, hfirst, hsecond, Option.bind_some, Option.bind_some,
      hmatches.isVacant_eq, problem?_eq relation hmatches]

theorem problem?_congr (h : earlier.isMany = later.isMany) (found : Json) :
    problem? earlier found = problem? later found := by
  unfold problem?
  rw [h]

theorem problem?_object (hsingle : relation.isMany = false) (members : Members) :
    problem? relation (object members) = none := by
  unfold problem?
  rw [hsingle]

theorem problem?_object_eq (members fields : Members) :
    problem? relation (object members) = problem? relation (object fields) := by
  unfold problem?
  cases relation.isMany <;> rfl

theorem exists_array_of_many (hmany : relation.isMany) (h : problem? relation value = none) :
    ∃ items, value = array items := by
  unfold problem? at h
  rw [hmany] at h
  cases value with
  | array items => exact ⟨items, rfl⟩
  | _ => cases h

theorem report?_eq_none_of_problem? {found : Json} (h : value.get? relation.path = some found)
    (hformed : problem? relation found = none) : report? type relation value = none := by
  rw [report?, h, Option.bind_some, hformed, Option.map_none, ite_self]

/-- A way of keys leads nowhere inside an array. -/
theorem getSteps?_array_eq_none {names : List String} {front more : List Step} {step : Step}
    (hnames : names.map Step.key = front ++ step :: more) (items : List Json) :
    getSteps? (step :: more) (array items) = none := by
  have hmem : step ∈ names.map Step.key := by simp [hnames]
  obtain ⟨name, -, rfl⟩ := List.mem_map.mp hmem
  rfl

/-- Where a relation finds something behind a value that is taken out, it has nothing to report if
the later relation spares it. -/
theorem report?_behind_taken {names : List String} {more : List Step}
    (hearlier : earlier.path.steps = names.map Step.key) (hspares : earlier.Spares later)
    (hmore : later.path.steps ++ more = earlier.path.steps)
    (hread : value.get? later.path = some taken) (hformed : problem? later taken = none) :
    report? type earlier value = none := by
  have hfound : value.get? earlier.path = getSteps? more taken := by
    rw [Json.get?] at hread
    rw [Json.get?, ← hmore, getSteps?_append, hread, Option.bind_some]
  cases more with
  | nil =>
    rw [List.append_nil] at hmore
    have hmany := hspares.same (congrArg FieldPath.mk hmore).symm
    rw [getSteps?_nil] at hfound
    exact report?_eq_none_of_problem? hfound ((problem?_congr hmany taken).trans hformed)
  | cons step rest =>
    have hne : later.path ≠ earlier.path := by
      intro heq
      rw [heq] at hmore
      simp at hmore
    obtain ⟨items, rfl⟩ := exists_array_of_many (hspares.around ⟨_, hmore⟩ hne) hformed
    refine report?_eq_none_of_get? (hfound.trans ?_)
    exact getSteps?_array_eq_none (hearlier.symm.trans hmore.symm) items

/-- Where one key path stands to another: behind it, properly in front of it, or apart from it. -/
theorem keys_trichotomy (first second : List String) :
    second.map Step.key <+: first.map Step.key ∨
      (∃ name rest, second = first ++ name :: rest) ∨
        Apart (second.map Step.key) (first.map Step.key) := by
  by_cases hbehind : second.map Step.key <+: first.map Step.key
  · exact .inl hbehind
  · by_cases hfront : first.map Step.key <+: second.map Step.key
    · obtain ⟨more, hmore⟩ := hfront
      obtain ⟨front, rest, rfl, hfirst, -⟩ := List.map_eq_append_iff.mp hmore.symm
      have heq : front = first := List.map_injective_iff.mpr (fun _ _ h ↦ Step.key.inj h) hfirst
      subst heq
      cases rest with
      | nil =>
        rw [List.append_nil] at hbehind
        exact absurd List.prefix_rfl hbehind
      | cons name rest => exact .inr (.inl ⟨name, rest, rfl⟩)
    · exact .inr (.inr ⟨hbehind, hfront⟩)

/-- Around a value that is taken out are objects, before and, if anything is left, afterwards. -/
theorem objects_around_taken {front names : List String} {name : String}
    (hvalue : value.WellFormed)
    (htakes : TakesOut taken ((front ++ name :: names).map Step.key) value left) :
    ∃ members, members ≠ [] ∧ getSteps? (front.map Step.key) value = some (object members) ∧
      (getSteps? (front.map Step.key) left = none ∨
        ∃ fields, getSteps? (front.map Step.key) left = some (object fields)) := by
  have hread := htakes.getSteps?
  rw [List.map_append, getSteps?_append, Option.bind_eq_some_iff] at hread
  obtain ⟨inner, hinner, hrest⟩ := hread
  obtain ⟨members, found, rfl, hfound, -⟩ := eq_object_of_getSteps?_key hrest
  refine ⟨members, ?_, hinner, ?_⟩
  · rintro rfl
    cases hfound
  · by_cases hstays : getSteps? (front.map Step.key) left = none
    · exact .inl hstays
    · obtain ⟨fields, hfields, -⟩ := htakes.keys_of_stays hvalue hinner hstays
      exact .inr ⟨fields, hfields⟩

section Taking

variable {names others : List String} (hearlier : earlier.path = .ofKeys names)
  (hlater : later.path = .ofKeys others) (hvalue : value.WellFormed)
  (htakes : TakesOut taken (others.map Step.key) value left)

include hearlier hvalue htakes

/-- What is left calls for no report that was not due before. -/
theorem report?_of_left {warning : Failure} (h : report? type earlier left = some warning) :
    report? type earlier value = some warning := by
  have hget (document : Json) :
      document.get? earlier.path = getSteps? (names.map Step.key) document := by
    rw [hearlier]
    rfl
  rcases keys_trichotomy names others with ⟨more, hmore⟩ | ⟨name, rest, rfl⟩ | hapart
  · have hgone : left.get? earlier.path = none := by
      rw [hget, ← hmore, getSteps?_append, htakes.gone hvalue, Option.bind_none]
    cases (report?_eq_none_of_get? hgone).symm.trans h
  · obtain ⟨members, hmembers, hfound, hnone | ⟨fields, hfields⟩⟩ :=
      objects_around_taken hvalue htakes
    · cases (report?_eq_none_of_get? ((hget left).trans hnone)).symm.trans h
    · rw [report?, (hget left).trans hfields, Option.bind_some] at h
      split at h
      · cases h
      · have hvacant : (object members).isVacant = false := by simpa [isVacant] using hmembers
        rw [report?, (hget value).trans hfound, Option.bind_some, hvacant,
          problem?_object_eq members fields]
        exact h
  · have hsame : left.get? earlier.path = value.get? earlier.path := by
      rw [hget, hget, htakes.getSteps?_of_apart hvalue hapart]
    exact (report?_congr hsame).symm.trans h

include hlater

/-- Where an earlier relation that is spared has something to report, it finds the same
afterwards. -/
theorem get?_of_report? (hspares : earlier.Spares later) (hformed : problem? later taken = none)
    {warning : Failure} (h : report? type earlier value = some warning) :
    left.get? earlier.path = value.get? earlier.path := by
  have hsteps : earlier.path.steps = names.map Step.key := congrArg FieldPath.steps hearlier
  have hread : value.get? later.path = some taken := by
    rw [hlater]
    exact htakes.getSteps?
  rcases keys_trichotomy names others with ⟨more, hmore⟩ | ⟨name, rest, rfl⟩ | hapart
  · have hbehind : later.path.steps ++ more = earlier.path.steps := by
      rw [hsteps, hlater]
      exact hmore
    cases (report?_behind_taken hsteps hspares hbehind hread hformed).symm.trans h
  · obtain ⟨members, -, hfound, -⟩ := objects_around_taken hvalue htakes
    have hsingle : earlier.isMany = false := by
      apply hspares.inside <;> rw [hearlier, hlater]
      · exact ⟨(name :: rest).map Step.key, (List.map_append ..).symm⟩
      · simp [FieldPath.ofKeys]
    rw [← hsteps] at hfound
    cases (report?_eq_none_of_problem? hfound (problem?_object hsingle members)).symm.trans h
  · rw [Json.get?, Json.get?, hsteps]
    exact htakes.getSteps?_of_apart hvalue hapart

end Taking

/-! ## All visits -/

/-- The three outcomes of a visit, with what is found and what it calls for. -/
theorem visit_cases (relation : Relation) (value : Json) :
    (visit relation value = .nothing ∧ report? relation.parent relation value = none) ∨
      (∃ found warning, visit relation value = .kept warning ∧
        value.get? relation.path = some found ∧
        report? relation.parent relation value = some warning) ∨
      ∃ found left, visit relation value = .taken (objectsOf found) left ∧
        value.take relation.path = some (found, left) ∧ problem? relation found = none := by
  cases hget : value.get? relation.path with
  | none => exact .inl ⟨by rw [visit, hget], report?_eq_none_of_get? hget⟩
  | some found =>
    cases hvacant : found.isVacant with
    | true => exact .inl ⟨by simp [visit, hget, hvacant], by simp [report?, hget, hvacant]⟩
    | false =>
      cases hproblem : problem? relation found with
      | some kind =>
        exact .inr (.inl ⟨found, retainedAs relation.parent relation kind,
          by simp [visit, hget, hvacant, hproblem], rfl,
          by simp [report?, hget, hvacant, hproblem]⟩)
      | none =>
        cases htake : value.take relation.path with
        | none =>
          exact .inl ⟨by simp [visit, hget, hvacant, hproblem, htake],
            report?_eq_none_of_problem? hget hproblem⟩
        | some result =>
          obtain ⟨taken, left⟩ := result
          have hread : value.get? relation.path = some taken :=
            (takeSteps_eq_some_iff.mp htake).getSteps?
          rw [hget, Option.some.injEq] at hread
          subst hread
          exact .inr (.inr ⟨found, left, by simp [visit, hget, hvacant, hproblem, htake], rfl,
            hproblem⟩)

/-- Taking at a path of keys takes out at the end of the keys. -/
theorem exists_takesOut_keys {path : FieldPath} (hpath : path.keysOnly)
    (h : value.take path = some (taken, left)) :
    ∃ names : List String, path = .ofKeys names ∧
      TakesOut taken (names.map Step.key) value left := by
  obtain ⟨names, rfl⟩ := exists_keys_of_keysOnly hpath
  exact ⟨names, rfl, takeSteps_eq_some_iff.mp h⟩

/-- Nothing stands where a value was taken out. -/
theorem get?_of_take {path : FieldPath} (hpath : path.keysOnly) (hvalue : value.WellFormed)
    (h : value.take path = some (taken, left)) : left.get? path = none := by
  obtain ⟨names, rfl, htakes⟩ := exists_takesOut_keys hpath h
  exact htakes.gone hvalue

theorem report?_of_nothing (h : visit relation value = .nothing) :
    report? relation.parent relation value = none := by
  rcases visit_cases relation value with ⟨-, hreport⟩ | ⟨_, _, hvisit, -⟩ | ⟨_, _, hvisit, -⟩
  · exact hreport
  · cases h.symm.trans hvisit
  · cases h.symm.trans hvisit

theorem report?_of_kept {warning : Failure} (h : visit relation value = .kept warning) :
    report? relation.parent relation value = some warning := by
  rcases visit_cases relation value with ⟨hvisit, -⟩ | ⟨_, _, hvisit, -, hreport⟩ |
    ⟨_, _, hvisit, -⟩
  · cases h.symm.trans hvisit
  · cases h.symm.trans hvisit
    exact hreport
  · cases h.symm.trans hvisit

theorem problem?_of_taken {objects : List Members} (h : visit relation value = .taken objects left)
    (htake : value.take relation.path = some (taken, left)) : problem? relation taken = none := by
  rcases visit_cases relation value with ⟨hvisit, -⟩ | ⟨_, _, hvisit, -⟩ | ⟨_, _, -, hsame, hformed⟩
  · cases h.symm.trans hvisit
  · cases h.symm.trans hvisit
  · cases htake.symm.trans hsame
    exact hformed

theorem exists_course (visiting : List Relation) (value : Json) :
    ∃ deeds left, Course value visiting deeds left := by
  induction visiting generalizing value with
  | nil => exact ⟨[], value, .done value⟩
  | cons relation rest ih =>
    rcases visit_cases relation value with
      ⟨hvisit, -⟩ | ⟨found, warning, hvisit, hfound, -⟩ | ⟨found, after, hvisit, htake, -⟩
    · obtain ⟨deeds, left, hcourse⟩ := ih value
      exact ⟨deeds, left, .nothing hvisit hcourse⟩
    · obtain ⟨deeds, left, hcourse⟩ := ih value
      exact ⟨_, left, .kept hvisit hfound hcourse⟩
    · obtain ⟨deeds, left, hcourse⟩ := ih after
      exact ⟨_, left, .taken hvisit htake hcourse⟩

theorem elements_warnings (nested : Nested) (type : TypeName) (tag : Option String)
    (objects : List Members) :
    (elements nested type tag objects).2.warnings =
      objects.flatMap fun members ↦ (nested type members).2.warnings := by
  induction objects with
  | nil => rfl
  | cons members rest ih =>
    rw [List.flatMap_cons, ← ih]
    rfl

namespace Course

variable {visiting : List Relation} {deeds : List Deed}

/-- Children, rest and warnings of the visits, read off their course. The warnings of the children
stand among those of the object itself. -/
theorem visitAll_eq (h : Course value visiting deeds left) (relations : Relations)
    (nested : Nested) :
    (visitAll relations nested value visiting).1 = (deeds.flatMap Deed.pieces).map (fun piece ↦
        (nested piece.1.child piece.2).1.withTag (relations.selector piece.1)) ∧
      (visitAll relations nested value visiting).2.1 = left ∧
      (visitAll relations nested value visiting).2.2.warnings.Perm
        (deeds.filterMap Deed.warning? ++ (deeds.flatMap Deed.pieces).flatMap fun piece ↦
          (nested piece.1.child piece.2).2.warnings) := by
  induction h with
  | done value => exact ⟨rfl, rfl, .nil⟩
  | nothing hvisit _ ih =>
    rw [visitAll, hvisit]
    exact ih
  | kept hvisit _ _ ih =>
    rw [visitAll, hvisit]
    exact ⟨ih.1, ih.2.1, ih.2.2.cons _⟩
  | @taken relation rest value found after left deeds hvisit _ _ ih =>
    obtain ⟨hchildren, hleft, hwarnings⟩ := ih
    rw [visitAll, hvisit]
    refine ⟨?_, hleft, ?_⟩
    · simp only [elements_fst, hchildren, List.flatMap_cons, Deed.pieces, List.map_append,
        List.map_map, Function.comp_def]
    · have hfront : ((objectsOf found).map (relation, ·)).flatMap (fun piece ↦
          (nested piece.1.child piece.2).2.warnings) = (elements nested relation.child
            (relations.selector relation) (objectsOf found)).2.warnings := by
        rw [elements_warnings, List.flatMap_map]
      rw [List.flatMap_cons, Deed.pieces, List.flatMap_append, hfront]
      exact (hwarnings.append_left _).trans (List.perm_append_comm_assoc _ _ _)

/-- What taking something out preserves holds in the end. -/
theorem preserves (h : Course value visiting deeds left) {motive : Json → Prop}
    (hvalue : motive value)
    (htakes : ∀ relation ∈ visiting, ∀ value found after, motive value →
      value.take relation.path = some (found, after) → problem? relation found = none →
      motive after) : motive left := by
  induction h with
  | done value => exact hvalue
  | nothing _ _ ih => exact ih hvalue (List.forall_mem_cons.mp htakes).2
  | kept _ _ _ ih => exact ih hvalue (List.forall_mem_cons.mp htakes).2
  | taken hvisit htake _ ih =>
    obtain ⟨hfirst, hrest⟩ := List.forall_mem_cons.mp htakes
    exact ih (hfirst _ _ _ hvalue htake (problem?_of_taken hvisit htake)) hrest

theorem wellFormed (h : Course value visiting deeds left) (hvalue : value.WellFormed) :
    left.WellFormed :=
  h.preserves hvalue fun _ _ _ _ _ hwf htake _ ↦
    ((takeSteps_eq_some_iff.mp htake).wellFormed hwf).2

theorem eq_object {members : Members} (h : Course (object members) visiting deeds left) :
    ∃ fields, left = object fields := by
  refine h.preserves (motive := fun value ↦ ∃ fields, value = object fields) ⟨members, rfl⟩ ?_
  rintro relation - _ found after ⟨fields, rfl⟩ htake -
  exact (takeSteps_eq_some_iff.mp htake).eq_object

/-- The pieces have no repeated keys and are less high than the value that they are taken from. -/
theorem pieces_below (h : Course value visiting deeds left) (hvalue : value.WellFormed) :
    ∀ piece ∈ deeds.flatMap Deed.pieces,
      (object piece.2).WellFormed ∧ (object piece.2).height < value.height := by
  induction h with
  | done value => simp
  | nothing _ _ ih => exact ih hvalue
  | kept _ _ _ ih => exact ih hvalue
  | taken hvisit htake _ ih =>
    have hwf := (takeSteps_eq_some_iff.mp htake).wellFormed hvalue
    obtain ⟨hleft, hobjects⟩ := height_visit hvisit
    intro piece hpiece
    rw [List.flatMap_cons, List.mem_append] at hpiece
    rcases hpiece with hfirst | hrest
    · obtain ⟨members, hmem, rfl⟩ := List.mem_map.mp hfirst
      exact ⟨wellFormed_objectsOf hwf.1 members hmem, hobjects members hmem⟩
    · obtain ⟨hpiece, hheight⟩ := ih hwf.2 piece hrest
      exact ⟨hpiece, Nat.lt_of_lt_of_le hheight hleft⟩

/-- A path that leads nowhere leads nowhere afterwards. -/
theorem get?_eq_none (h : Course value visiting deeds left) (hvalue : value.WellFormed)
    (hkeys : ∀ later ∈ visiting, later.path.keysOnly) {path : FieldPath}
    (hpath : value.get? path = none) : left.get? path = none := by
  refine (h.preserves (motive := fun value ↦ value.WellFormed ∧ value.get? path = none)
    ⟨hvalue, hpath⟩ ?_).2
  rintro later hmem value found after ⟨hwf, hnone⟩ htake -
  obtain ⟨names, -, htakes⟩ := exists_takesOut_keys (hkeys later hmem) htake
  exact ⟨(htakes.wellFormed hwf).2, htakes.getSteps?_eq_none hwf hnone⟩

section Earlier

variable (h : Course value visiting deeds left) (type : TypeName) (hvalue : value.WellFormed)
  (hkeys : ∀ later ∈ visiting, later.path.keysOnly) (hearlier : earlier.path.keysOnly)

include h hvalue hkeys hearlier

/-- What is left in the end calls for no report that was not due before. -/
theorem report?_of_left {warning : Failure} (hreport : report? type earlier left = some warning) :
    report? type earlier value = some warning := by
  obtain ⟨names, hnames⟩ := exists_keys_of_keysOnly hearlier
  refine (h.preserves (motive := fun after ↦ after.WellFormed ∧
    (report? type earlier after = some warning → report? type earlier value = some warning))
    ⟨hvalue, id⟩ ?_).2 hreport
  rintro later hmem before found after ⟨hwf, hbefore⟩ htake -
  obtain ⟨others, -, htakes⟩ := exists_takesOut_keys (hkeys later hmem) htake
  exact ⟨(htakes.wellFormed hwf).2, fun hafter ↦
    hbefore (Decompose.report?_of_left hnames hwf htakes hafter)⟩

/-- Where a relation that all visited ones spare has something to report, it finds the same in the
end. -/
theorem get?_of_report? (hspares : ∀ later ∈ visiting, earlier.Spares later) {warning : Failure}
    (hreport : report? type earlier value = some warning) :
    left.get? earlier.path = value.get? earlier.path := by
  obtain ⟨names, hnames⟩ := exists_keys_of_keysOnly hearlier
  refine (h.preserves (motive := fun after ↦ after.WellFormed ∧
    after.get? earlier.path = value.get? earlier.path) ⟨hvalue, rfl⟩ ?_).2
  rintro later hmem before found after ⟨hwf, hbefore⟩ htake hformed
  obtain ⟨others, hothers, htakes⟩ := exists_takesOut_keys (hkeys later hmem) htake
  have hdue : report? type earlier before = some warning := (report?_congr hbefore).trans hreport
  refine ⟨(htakes.wellFormed hwf).2, ?_⟩
  rw [← hbefore]
  exact Decompose.get?_of_report? hnames hothers hwf htakes (hspares later hmem) hformed hdue

end Earlier

/-- The reports that what is left calls for were made, in the order of the relations. -/
theorem reports_sublist (h : Course value visiting deeds left) (hvalue : value.WellFormed)
    (hkeys : ∀ relation ∈ visiting, relation.path.keysOnly) :
    (visiting.filterMap fun relation ↦ report? relation.parent relation left).Sublist
      (deeds.filterMap Deed.warning?) := by
  induction h with
  | done value => exact .refl _
  | @nothing relation rest value left deeds hvisit hcourse ih =>
    obtain ⟨hkey, hkeys⟩ := List.forall_mem_cons.mp hkeys
    rw [List.filterMap_cons]
    split
    · exact ih hvalue hkeys
    · next warning hleft =>
      have hdue := hcourse.report?_of_left relation.parent hvalue hkeys hkey hleft
      cases (report?_of_nothing hvisit).symm.trans hdue
  | @kept relation rest value found left warning deeds hvisit hfound hcourse ih =>
    obtain ⟨hkey, hkeys⟩ := List.forall_mem_cons.mp hkeys
    rw [List.filterMap_cons]
    split
    · exact (ih hvalue hkeys).cons warning
    · next other hleft =>
      have hdue := hcourse.report?_of_left relation.parent hvalue hkeys hkey hleft
      cases (report?_of_kept hvisit).symm.trans hdue
      exact (ih hvalue hkeys).cons_cons warning
  | @taken relation rest value found after left deeds _ htake hcourse ih =>
    obtain ⟨hkey, hkeys⟩ := List.forall_mem_cons.mp hkeys
    have hafter := ((takeSteps_eq_some_iff.mp htake).wellFormed hvalue).2
    have hgone := hcourse.get?_eq_none hafter hkeys (get?_of_take hkey hvalue htake)
    rw [List.filterMap_cons, report?_eq_none_of_get? hgone]
    exact ih hafter hkeys

section Spared

variable (h : Course value visiting deeds left) (hvalue : value.WellFormed)
  (hkeys : ∀ relation ∈ visiting, relation.path.keysOnly)
  (hspared : visiting.Pairwise Relation.Spares)

include h hvalue hkeys hspared

/-- Each deed of relations that spare what was reported before shows in what is left. -/
theorem shows : ∀ deed ∈ deeds, deed.Shows left := by
  induction h with
  | done value => simp
  | nothing _ _ ih =>
    exact ih hvalue (List.forall_mem_cons.mp hkeys).2 (List.pairwise_cons.mp hspared).2
  | @kept relation rest value found left warning deeds hvisit hfound hcourse ih =>
    obtain ⟨hkey, hkeys⟩ := List.forall_mem_cons.mp hkeys
    obtain ⟨hspares, hspared⟩ := List.pairwise_cons.mp hspared
    have hsame := hcourse.get?_of_report? relation.parent hvalue hkeys hkey hspares
      (report?_of_kept hvisit)
    exact List.forall_mem_cons.mpr ⟨hsame.trans hfound, ih hvalue hkeys hspared⟩
  | taken _ htake hcourse ih =>
    obtain ⟨hkey, hkeys⟩ := List.forall_mem_cons.mp hkeys
    have hafter := ((takeSteps_eq_some_iff.mp htake).wellFormed hvalue).2
    have hgone := hcourse.get?_eq_none hafter hkeys (get?_of_take hkey hvalue htake)
    exact List.forall_mem_cons.mpr
      ⟨hgone, ih hafter hkeys (List.pairwise_cons.mp hspared).2⟩

/-- What is left calls for the reports that were made. -/
theorem warnings_sublist : (deeds.filterMap Deed.warning?).Sublist
    (visiting.filterMap fun relation ↦ report? relation.parent relation left) := by
  have hcons (relation : Relation) (rest : List Relation) (left : Json) :
      (rest.filterMap fun relation ↦ report? relation.parent relation left).Sublist
        ((relation :: rest).filterMap fun relation ↦ report? relation.parent relation left) :=
    (List.sublist_cons_self relation rest).filterMap _
  induction h with
  | done value => exact .refl _
  | nothing _ _ ih =>
    exact (ih hvalue (List.forall_mem_cons.mp hkeys).2 (List.pairwise_cons.mp hspared).2).trans
      (hcons _ _ _)
  | @kept relation rest value found left warning deeds hvisit hfound hcourse ih =>
    obtain ⟨hkey, hkeys⟩ := List.forall_mem_cons.mp hkeys
    obtain ⟨hspares, hspared⟩ := List.pairwise_cons.mp hspared
    have hdue := report?_of_kept hvisit
    have hsame := hcourse.get?_of_report? relation.parent hvalue hkeys hkey hspares hdue
    have hleft : report? relation.parent relation left = some warning :=
      (report?_congr hsame).trans hdue
    simp only [List.filterMap_cons, Deed.warning?, hleft]
    exact (ih hvalue hkeys hspared).cons_cons warning
  | taken _ htake _ ih =>
    have hafter := ((takeSteps_eq_some_iff.mp htake).wellFormed hvalue).2
    exact (ih hafter (List.forall_mem_cons.mp hkeys).2 (List.pairwise_cons.mp hspared).2).trans
      (hcons _ _ _)

theorem undisturbed : Undisturbed deeds left where
  shows := h.shows hvalue hkeys hspared
  apart := by
    intro relation found warning other piece hkept htaken
    have hstays : left.get? relation.path = some found := h.shows hvalue hkeys hspared _ hkept
    have hgone : left.get? other.path = none := h.shows hvalue hkeys hspared _ htaken
    refine ⟨not_prefix_of_getSteps? hgone hstays, fun rest hrest ↦ ?_⟩
    rw [Json.get?] at hstays
    rwa [Json.get?, hrest, getSteps?_append, hstays, Option.bind_some] at hgone

end Spared

end Course

/-! ## Own fields -/

variable {schema : Schema} {marker : String}

theorem fieldOf?_of_standsFor {type : TypeName} {members : Members} {child : Outline}
    (h : StandsFor schema marker type members child) : child.fieldOf? = none := by
  cases h
  rfl

theorem StandsFor.withTag {type : TypeName} {members : Members} {outline : Outline}
    (h : StandsFor schema marker type members outline) (tag : Option String) :
    StandsFor schema marker type members (outline.withTag tag) := by
  cases h with
  | element hcourse hdeeds hown hfields hreports hchildren =>
    exact .element hcourse hdeeds hown hfields hreports hchildren

section Split

variable {members others : Members} {keep : String → Bool}
  (hmembers : ∀ key, members.get? key = if keep key then none else others.get? key)

include hmembers

/-- Members without those that pass a test on their keys, and these behind them, are found like all
of them together. -/
theorem get?_append_filter (hothers : (others.map Prod.fst).Nodup) (key : String) :
    Members.get? (members ++ others.filter fun entry ↦ keep entry.1) key = others.get? key := by
  have hkept : Association.get? key (others.filter fun entry ↦ keep entry.1) =
      (others.get? key).filter fun _ ↦ keep key := Association.get?_filter key _ hothers
  rw [Members.get?, Association.get?_append, hkept]
  change (members.get? key).or _ = _
  rw [hmembers]
  cases keep key <;> cases others.get? key <;> rfl

theorem nodup_append_filter (hnodup : (members.map Prod.fst).Nodup)
    (hothers : (others.map Prod.fst).Nodup) :
    ((members ++ others.filter fun entry ↦ keep entry.1).map Prod.fst).Nodup := by
  rw [List.map_append, List.nodup_append]
  refine ⟨hnodup, hothers.sublist (List.filter_sublist.map _), ?_⟩
  rintro key hmember _ hother rfl
  obtain ⟨entry, hentry, rfl⟩ := List.mem_map.mp hother
  have hnone : members.get? entry.1 = none := by
    rw [hmembers, if_pos (List.mem_filter.mp hentry).2]
  exact Association.get?_eq_none_iff.mp hnone hmember

end Split

/-- What is left of an object becomes the own fields of its element. -/
theorem exists_ownFields {rules : FieldRules} {fields : Members}
    (hfields : (object fields).WellFormed)
    (hspec : ∀ key, rules.specKey = some key → rules.hoisted? marker key = none)
    {children : List Outline} (hchildren : ∀ child ∈ children, child.fieldOf? = none) :
    ∃ own, Outline.ownFields? rules marker (rules.contract marker fields).props
        (children ++ (rules.contract marker fields).verbatim.map Outline.verbatim) = some own ∧
      (own.map Prod.fst).Nodup ∧ ∀ key, own.get? key = fields.get? key := by
  have hmetadata : ∀ members, fields.get? FieldRules.metadataKey = some (.object members) →
      (members.map Prod.fst).Nodup := fun _ hget ↦ (hfields.member hget).nodup
  obtain ⟨expanded, hexpand, hnodup, hget⟩ :=
    FieldRules.expand_contract hfields.nodup hmetadata hspec
  have hverbatim : (rules.contract marker fields).verbatim =
      fields.filter (rules.isMarked marker) := by
    rw [FieldRules.contract_eq hfields.nodup hmetadata hspec]
  have hliterals : (children ++ (rules.contract marker fields).verbatim.map
      Outline.verbatim).filterMap Outline.fieldOf? = fields.filter (rules.isMarked marker) := by
    rw [List.filterMap_append, List.filterMap_eq_nil_iff.mpr hchildren, List.nil_append,
      List.filterMap_map, hverbatim]
    exact List.filterMap_some
  refine ⟨expanded ++ fields.filter (rules.isMarked marker), ?_, ?_, fun key ↦ ?_⟩
  · rw [Outline.ownFields?, hexpand, hliterals]
  · exact nodup_append_filter hget hnodup hfields.nodup
  · exact get?_append_filter hget hfields.nodup key

/-! ## Whole documents -/

theorem reportsOfAll_append (front back : List Outline) :
    Outline.reportsOfAll schema marker (front ++ back) =
      Outline.reportsOfAll schema marker front ++ Outline.reportsOfAll schema marker back := by
  induction front with
  | nil => rfl
  | cons outline rest ih =>
    rw [List.cons_append, Outline.reportsOfAll, Outline.reportsOfAll, ih, List.append_assoc]

theorem reportsOfAll_verbatim (fields : Members) :
    Outline.reportsOfAll schema marker (fields.map Outline.verbatim) = [] := by
  induction fields with
  | nil => rfl
  | cons field rest ih => exact ih

theorem reports_withTag (outline : Outline) (tag : Option String) :
    (outline.withTag tag).reports schema marker = outline.reports schema marker := by
  cases outline <;> rfl

/-- Elements of objects below stand for them; what these call for was reported, and nothing else
where relations spare what was reported before. -/
def Nested.Accounts (nested : Nested) (schema : Schema) (marker : String) (bound : Nat) : Prop :=
  ∀ type members, (object members).WellFormed → (object members).height ≤ bound →
    StandsFor schema marker type members (nested type members).1 ∧
      ((nested type members).1.reports schema marker).Subperm (nested type members).2.warnings ∧
      (schema.relations.Sparing →
        (nested type members).2.warnings.Perm ((nested type members).1.reports schema marker))

/-- The children made of pieces stand for them; what these call for was reported, and nothing else
where relations spare what was reported before. -/
theorem children_account {nested : Nested} {bound : Nat}
    (hnested : nested.Accounts schema marker bound) (tagOf : Relation → Option String)
    {pieces : List (Relation × Members)}
    (hpieces : ∀ piece ∈ pieces, (object piece.2).WellFormed ∧ (object piece.2).height ≤ bound) :
    let children := pieces.map fun piece ↦
      (nested piece.1.child piece.2).1.withTag (tagOf piece.1)
    let warnings := pieces.flatMap fun piece ↦ (nested piece.1.child piece.2).2.warnings
    Forall₂ (fun piece child ↦ StandsFor schema marker piece.1.child piece.2 child) pieces
        children ∧
      (Outline.reportsOfAll schema marker children).Subperm warnings ∧
      (schema.relations.Sparing → warnings.Perm (Outline.reportsOfAll schema marker children)) := by
  induction pieces with
  | nil => exact ⟨.nil, .refl _, fun _ ↦ .nil⟩
  | cons piece rest ih =>
    obtain ⟨⟨hwf, hheight⟩, hrest⟩ := List.forall_mem_cons.mp hpieces
    obtain ⟨hstands, hsubperm, hperm⟩ := hnested piece.1.child piece.2 hwf hheight
    obtain ⟨hchildren, hbelow, hexact⟩ := ih hrest
    dsimp only
    rw [List.flatMap_cons, List.map_cons, Outline.reportsOfAll, reports_withTag]
    exact ⟨.cons (hstands.withTag _) hchildren, hsubperm.append hbelow,
      fun hsparing ↦ (hperm hsparing).append (hexact hsparing)⟩

theorem fieldOf?_children {pieces : List (Relation × Members)} {children : List Outline}
    (h : Forall₂ (fun piece child ↦ StandsFor schema marker piece.1.child piece.2 child) pieces
      children) : ∀ child ∈ children, child.fieldOf? = none := by
  induction h with
  | nil => simp
  | cons hstands _ ih => exact List.forall_mem_cons.mpr ⟨fieldOf?_of_standsFor hstands, ih⟩

/-- The reports that an element's own fields call for are those that were made. -/
theorem ownReports_eq {type : TypeName} {left own props : Members} {children : List Outline}
    (hparent : ∀ relation ∈ schema.relations.under type, relation.parent = type)
    (hown : Outline.ownFields? (schema.rulesOf type) marker props children = some own)
    (hmatches : (object own).Matches (object left)) :
    Outline.ownReports schema marker type props children =
      (schema.relations.under type).filterMap fun relation ↦
        report? relation.parent relation (object left) := by
  rw [Outline.ownReports, hown]
  refine List.filterMap_congr fun relation hmem ↦ ?_
  rw [hparent relation hmem]
  exact report?_matches hmatches

section Schema

variable {declared : List Relation} (hrelations : Relations.ofList declared = .ok schema.relations)
  (hschema : schema.Reportable marker)

include hrelations hschema

/-- What the visits of an object leave, with the children made of what they took out, makes an
element that stands for the object. -/
theorem finish_accounts {type : TypeName} {members left : Members} {deeds : List Deed}
    {children : List Outline} (hmembers : (object members).WellFormed)
    (hcourse : Course (object members) (schema.relations.under type) deeds (object left))
    (hchildren : Forall₂ (fun piece child ↦ StandsFor schema marker piece.1.child piece.2 child)
      (deeds.flatMap Deed.pieces) children) :
    StandsFor schema marker type members (finish schema marker type (object left) children) ∧
      ∃ own, (finish schema marker type (object left) children).reports schema marker =
          own ++ Outline.reportsOfAll schema marker children ∧
        own.Sublist (deeds.filterMap Deed.warning?) ∧
        (schema.relations.Sparing → deeds.filterMap Deed.warning? = own) := by
  let contracted := (schema.rulesOf type).contract marker left
  have hfinish : finish schema marker type (object left) children =
      .element type contracted.props none
        (children ++ contracted.verbatim.map Outline.verbatim) := rfl
  have hkeys := hschema.keys type
  have hleft := hcourse.wellFormed hmembers
  have hparent : ∀ relation ∈ schema.relations.under type, relation.parent = type := by
    intro relation hmem
    rw [Relations.under_ofList hrelations, List.mem_filter] at hmem
    exact of_decide_eq_true hmem.2
  obtain ⟨own, hown, hnodup, hfields⟩ :=
    exists_ownFields hleft (hschema.unmarkedSpec type) (fieldOf?_children hchildren)
  have hmatches : (object own).Matches (object left) := by
    refine matches_object_iff.mpr ⟨hnodup, hleft.nodup, fun key ↦ ?_⟩
    rw [hfields]
    exact (Matches.refl hleft).member key
  have hreports : (Outline.ownReports schema marker type contracted.props
      (children ++ contracted.verbatim.map Outline.verbatim)).Sublist
        (deeds.filterMap Deed.warning?) := by
    rw [ownReports_eq hparent hown hmatches]
    exact hcourse.reports_sublist hmembers hkeys
  have hexact (hspared : (schema.relations.under type).Pairwise Relation.Spares) :
      deeds.filterMap Deed.warning? = Outline.ownReports schema marker type contracted.props
        (children ++ contracted.verbatim.map Outline.verbatim) := by
    refine List.Sublist.antisymm ?_ hreports
    rw [ownReports_eq hparent hown hmatches]
    exact hcourse.warnings_sublist hmembers hkeys hspared
  rw [hfinish]
  refine ⟨.element hcourse hown hfields hreports (fun hspared ↦
    ⟨hcourse.undisturbed hmembers hkeys hspared, hexact hspared⟩) hchildren, _, ?_, hreports,
    fun hsparing ↦ hexact (hsparing type)⟩
  rw [Outline.reports, reportsOfAll_append, reportsOfAll_verbatim, List.append_nil]

theorem element_accounts (depth : Nat) :
    (element schema marker depth).Accounts schema marker depth := by
  induction depth with
  | zero =>
    intro type members _ hheight
    simp [height] at hheight
  | succ depth ih =>
    intro type members hwf hheight
    obtain ⟨deeds, rest, hcourse⟩ := exists_course (schema.relations.under type) (object members)
    obtain ⟨left, rfl⟩ := hcourse.eq_object
    have hpieces : ∀ piece ∈ deeds.flatMap Deed.pieces,
        (object piece.2).WellFormed ∧ (object piece.2).height ≤ depth := by
      intro piece hmem
      obtain ⟨hpiece, hbelow⟩ := hcourse.pieces_below hwf piece hmem
      exact ⟨hpiece, by omega⟩
    obtain ⟨hvisited, hleft, hwarnings⟩ :=
      hcourse.visitAll_eq schema.relations (element schema marker depth)
    obtain ⟨hchildren, hbelow, hexact⟩ := children_account ih schema.relations.selector hpieces
    obtain ⟨hstands, own, hreports, hown, hmade⟩ :=
      finish_accounts hrelations hschema hwf hcourse hchildren
    simp only [element, hvisited, hleft]
    refine ⟨hstands, ?_, fun hsparing ↦ ?_⟩
    · rw [hreports]
      exact (hown.subperm.append hbelow).trans hwarnings.symm.subperm
    · rw [hreports, ← hmade hsparing]
      exact hwarnings.trans ((hexact hsparing).append_left _)

/-- What stays is reported, and reports are true where no relation takes away what one before it
under the same type may report. Let relations lead along keys, and let the marker stand before no
spec key of a hoisting type. Decomposing an object then warns at least of what its tree calls for:
once for each element and each relation under its type that finds a value of the wrong form, not
vacant, among the element's own fields. The element stands for the object down to its last child,
and where relations spare what was reported before, a reported value stands unchanged in the own
fields, nothing was taken out around or inside it, and there are no further warnings. What is no
object is carried as it is, without warnings. -/
theorem decompose_reports (type : TypeName) {document : Json} (hdocument : document.WellFormed) :
    (∀ members, document = .object members →
      ((decompose schema marker type document).root.reports schema marker).Subperm
          (decompose schema marker type document).warnings ∧
        StandsFor schema marker type members (decompose schema marker type document).root ∧
        (schema.relations.Sparing → (decompose schema marker type document).warnings.Perm
          ((decompose schema marker type document).root.reports schema marker))) ∧
      (document.isObject = false → (decompose schema marker type document).warnings = [] ∧
        (decompose schema marker type document).root = Outline.passthrough document) := by
  cases document with
  | object members =>
    obtain ⟨hstands, hsubperm, hperm⟩ := element_accounts hrelations hschema _ type members
      hdocument (Nat.le_refl _)
    refine ⟨?_, fun hnot ↦ Bool.noConfusion hnot⟩
    rintro _ ⟨⟩
    exact ⟨hsubperm, hstands, hperm⟩
  | _ => exact ⟨fun _ heq ↦ Json.noConfusion heq, fun _ ↦ ⟨rfl, rfl⟩⟩

end Schema

/-- A pod with volumes of the wrong form, and a container in it with a probe of the wrong form. -/
theorem decompose_reports_pod :
    let pod : TypeName := ⟨"Pod"⟩
    let container : Relation := ⟨⟨"Container"⟩, pod, .ofKeys ["spec", "containers"], true, none⟩
    let volume : Relation := ⟨⟨"Volume"⟩, pod, .ofKeys ["spec", "volumes"], true, none⟩
    let probe : Relation := ⟨⟨"Probe"⟩, container.child, .ofKeys ["probe"], false, none⟩
    let relations : Relations := ⟨[(pod, [container, volume]), (container.child, [probe])],
      [((pod, container.child), .only container), ((pod, volume.child), .only volume),
        ((container.child, probe.child), .only probe)]⟩
    let schema : Schema := ⟨relations, [(pod, ⟨true, some "body"⟩)], default⟩
    let members : Members := [("metadata", .object [("name", .string "web")]),
      ("spec", .object [("volumes", .bool true),
        ("containers", .array [.object [("probe", .string "soon")]])])]
    Relations.ofList [container, volume, probe] = .ok schema.relations ∧
      schema.Reportable "@" ∧ schema.relations.Sparing ∧
      (decompose schema "@" pod (.object members)).root.reports schema "@" =
        [retainedAs pod volume .boolean, retainedAs container.child probe .string] ∧
      (decompose schema "@" pod (.object members)).warnings.Perm
        ((decompose schema "@" pod (.object members)).root.reports schema "@") ∧
      StandsFor schema "@" pod members (decompose schema "@" pod (.object members)).root := by
  intro pod container volume probe relations schema members
  have hrelations : Relations.ofList [container, volume, probe] = .ok schema.relations := rfl
  have hunder (type : TypeName) : schema.relations.under type = [container, volume] ∨
      schema.relations.under type = [probe] ∨ schema.relations.under type = [] := by
    by_cases hpod : pod = type
    · exact .inl (hpod ▸ rfl)
    · by_cases hcontainer : container.child = type
      · exact .inr (.inl (hcontainer ▸ rfl))
      · refine .inr (.inr ?_)
        simp [schema, relations, Relations.under, Association.get?_cons_of_ne hpod,
          Association.get?_cons_of_ne hcontainer]
  have hreportable : schema.Reportable "@" :=
    { keys := by
        intro type
        rcases hunder type with heq | heq | heq <;> rw [heq] <;> decide
      unmarkedSpec := by
        intro type key hkey
        by_cases hpod : pod = type
        · subst hpod
          cases hkey
          decide
        · have hplain : schema.rulesOf type = FieldRules.plain := by
            simp [schema, Schema.rulesOf, Association.get?_cons_of_ne hpod]
          rw [hplain] at hkey
          cases hkey }
  have hspares : container.Spares volume := ⟨by decide, by decide, by decide⟩
  have hsparing : schema.relations.Sparing := by
    intro type
    rcases hunder type with heq | heq | heq <;> rw [heq] <;> simp [hspares]
  have hdocument : (object members).WellFormed := by
    simp [members, Json.WellFormed, MembersWellFormed, ItemsWellFormed]
  obtain ⟨-, hstands, hperm⟩ :=
    (decompose_reports hrelations hreportable pod hdocument).1 members rfl
  exact ⟨hrelations, hreportable, hsparing, rfl, hperm hsparing, hstands⟩

/-- A report is not true when a later relation along the same path asks for the other form: an array
of objects is reported as no object and kept, and then taken out all the same. -/
theorem decompose_reports_takenLater :
    let parent : TypeName := ⟨"P"⟩
    let single : Relation := ⟨⟨"A"⟩, parent, .ofKeys ["x"], false, none⟩
    let many : Relation := ⟨⟨"B"⟩, parent, .ofKeys ["x"], true, none⟩
    let relations : Relations := ⟨[(parent, [single, many])],
      [((parent, single.child), .only single), ((parent, many.child), .only many)]⟩
    let schema : Schema := ⟨relations, [], default⟩
    let one : Json := .number (.integer 1)
    let document : Json := .object [("x", .array [.object [("a", one)]])]
    Relations.ofList [single, many] = .ok schema.relations ∧
      (decompose schema "@" parent document).warnings = [retainedAs parent single .array] ∧
      (decompose schema "@" parent document).root =
        .element parent [] none [.element many.child [("a", one)] none []] ∧
      (decompose schema "@" parent document).root.reports schema "@" = [] := by
  intro parent single many relations schema one document
  exact ⟨rfl, rfl, rfl, rfl⟩

end Decompose
end ManifestTree
