import Mathlib.Data.List.Duplicate
import ManifestTree.Proofs.Leaves
import ManifestTree.Proofs.Properties

/-!
# Where properties go and what comes back

Each property has its targets: a marked one goes into `metadata`, an object at the spec key goes to
a field for each of its members, and every other property goes to the field of its own name.
Expanding fills exactly the targets, `metadata` first, and fails only where two of them are one
field. Contracting is undone by expanding but for fields that were set aside, which is so exactly
when the spec key, where it is used, does not begin with the marker itself.
-/

namespace ManifestTree.FieldRules

variable {rules : FieldRules} {marker : String}

/-! ## Targets -/

def Marks (rules : FieldRules) (marker key : String) : Prop :=
  rules.hoistsMetadata ∧ marker ≠ "" ∧ marker.toList <+: key.toList

instance (rules : FieldRules) (marker key : String) : Decidable (rules.Marks marker key) :=
  inferInstanceAs (Decidable (_ ∧ _ ∧ _))

inductive Target where
  | inMetadata (name : String)
  | field (name : String)
  deriving DecidableEq, Repr

/-- The targets of a property, each with its value. The marker counts before the spec key. -/
def targets (rules : FieldRules) (marker : String) : String × Json → List (Target × Json)
  | (key, value) =>
    if rules.Marks marker key then
      [(.inMetadata (String.ofList (key.toList.drop marker.toList.length)), value)]
    else if rules.specKey = some key ∧ value.isObject then
      value.members.map fun (name, inner) ↦ (.field name, inner)
    else [(.field key, value)]

def hoistedMembers (targets : List (Target × Json)) : Members :=
  targets.filterMap fun (target, value) ↦ match target with
    | .inMetadata name => some (name, value)
    | .field _ => none

def fieldMembers (targets : List (Target × Json)) : Members :=
  targets.filterMap fun (target, value) ↦ match target with
    | .inMetadata _ => none
    | .field name => some (name, value)

/-- The fields that targets stand for: `metadata` first, if anything goes there. -/
def filled (targets : List (Target × Json)) : Members :=
  (if (hoistedMembers targets).isEmpty then []
    else [(metadataKey, .object (hoistedMembers targets))]) ++ fieldMembers targets

@[simp]
theorem hoistedMembers_append (front back : List (Target × Json)) :
    hoistedMembers (front ++ back) = hoistedMembers front ++ hoistedMembers back :=
  List.filterMap_append

@[simp]
theorem fieldMembers_append (front back : List (Target × Json)) :
    fieldMembers (front ++ back) = fieldMembers front ++ fieldMembers back :=
  List.filterMap_append

theorem hoistedMembers_field (members : Members) :
    hoistedMembers (members.map fun (name, inner) ↦ (.field name, inner)) = [] := by
  simp [hoistedMembers]

theorem hoistsWith_iff : rules.hoistsWith marker ↔ rules.hoistsMetadata ∧ marker ≠ "" := by
  simp [hoistsWith]

theorem hoisted?_eq (rules : FieldRules) (marker key : String) :
    rules.hoisted? marker key =
      if rules.Marks marker key then some (String.ofList (key.toList.drop marker.toList.length))
      else none := by
  by_cases hhoists : rules.hoistsWith marker
  · have hboth := hoistsWith_iff.mp hhoists
    simp [hoisted?, hhoists, afterMarker?, Marks, hboth.1, hboth.2]
  · have hmarks : ¬ rules.Marks marker key := fun h ↦ hhoists (hoistsWith_iff.mpr ⟨h.1, h.2.1⟩)
    rw [hoisted?, if_neg hhoists, if_neg hmarks]

theorem isMarked_iff {entry : String × Json} :
    rules.isMarked marker entry ↔ rules.Marks marker entry.1 := by
  rw [isMarked, hoisted?_eq]
  split <;> simp [*]

/-! ## Filling the targets -/

/-- The outcome is the answer if the keys are distinct, and otherwise a failure at a key that stands
among them twice. -/
structure AnswersIfDistinct {α : Type} (keys : List String) (answer : α)
    (outcome : Except Failure α) : Prop where
  ok : keys.Nodup → outcome = .ok answer
  error : ¬ keys.Nodup → ∃ key, keys.Duplicate key ∧
    outcome = .error (.occupied (.ofKeys [key]))

namespace AnswersIfDistinct

variable {α β : Type} {keys more : List String} {answer : α} {last : β}

theorem pure (hkeys : keys.Nodup) (answer : α) :
    AnswersIfDistinct keys answer (.ok answer) :=
  ⟨fun _ ↦ rfl, fun h ↦ absurd hkeys h⟩

/-- A second part that looks at the keys of the first one too. -/
theorem bind {outcome : Except Failure α} {next : α → Except Failure β}
    (h : AnswersIfDistinct keys answer outcome) (hkeys : keys.Sublist more)
    (hnext : keys.Nodup → AnswersIfDistinct more last (next answer)) :
    AnswersIfDistinct more last (outcome >>= next) := by
  by_cases hnodup : keys.Nodup
  · rw [h.ok hnodup]
    exact hnext hnodup
  · obtain ⟨key, hkey, herror⟩ := h.error hnodup
    have hmore : more.Duplicate key := hkey.mono_sublist hkeys
    rw [herror]
    exact ⟨fun hdistinct ↦ absurd hmore (List.nodup_iff_forall_not_duplicate.mp hdistinct key),
      fun _ ↦ ⟨key, hmore, rfl⟩⟩

theorem exists_ok_iff {outcome : Except Failure α} (h : AnswersIfDistinct keys answer outcome) :
    (∃ found, outcome = .ok found) ↔ keys.Nodup := by
  constructor
  · rintro ⟨found, hfound⟩
    by_contra hnodup
    obtain ⟨key, -, herror⟩ := h.error hnodup
    cases hfound.symm.trans herror
  · exact fun hnodup ↦ ⟨answer, h.ok hnodup⟩

theorem eq_of_ok {outcome : Except Failure α} (h : AnswersIfDistinct keys answer outcome)
    {found : α} (hfound : outcome = .ok found) : found = answer := by
  have hok := h.ok (h.exists_ok_iff.mp ⟨found, hfound⟩)
  rw [hfound] at hok
  exact Except.ok.inj hok

end AnswersIfDistinct

theorem insertNew_answersIfDistinct {members : Members} (h : (members.map Prod.fst).Nodup)
    (key : String) (value : Json) :
    AnswersIfDistinct ((members ++ [(key, value)]).map Prod.fst) (members ++ [(key, value)])
      (insertNew members key value) := by
  by_cases hkey : key ∈ members.map Prod.fst
  · have hduplicate : ((members ++ [(key, value)]).map Prod.fst).Duplicate key := by
      rw [List.duplicate_iff_sublist, List.map_append]
      exact (List.singleton_sublist.mpr hkey).append (List.Sublist.refl [key])
    refine ⟨fun hnodup ↦ ?_, fun _ ↦ ⟨key, hduplicate, ?_⟩⟩
    · exact absurd hduplicate (List.nodup_iff_forall_not_duplicate.mp hnodup key)
    · have hsome : members.has key := by
        rw [Members.has, Members.get?, Option.isSome_iff_ne_none, Ne,
          Association.get?_eq_none_iff]
        exact not_not.mpr hkey
      rw [insertNew, if_pos hsome]
  · rw [insertNew_of_not_mem value hkey]
    refine .pure ?_ _
    rw [List.map_append]
    exact List.nodup_append'.mpr
      ⟨h, List.nodup_singleton key, List.disjoint_singleton.mpr hkey⟩

theorem insertAllNew_answersIfDistinct (more : Members) {members : Members}
    (h : (members.map Prod.fst).Nodup) :
    AnswersIfDistinct ((members ++ more).map Prod.fst) (members ++ more)
      (insertAllNew members more) := by
  induction more generalizing members with
  | nil =>
    rw [List.append_nil]
    exact .pure h members
  | cons entry rest ih =>
    rcases entry with ⟨key, value⟩
    refine (insertNew_answersIfDistinct h key value).bind ?_ fun hnodup ↦ ?_
    · exact List.Sublist.map _ (by simp)
    · simpa using ih hnodup

/-- What a property that is not hoisted adds to the fields. -/
theorem fieldMembers_targets {key : String} (value : Json) (h : ¬ rules.Marks marker key) :
    fieldMembers (rules.targets marker (key, value)) =
      (rules.opened? key value).getD [(key, value)] := by
  rw [targets, if_neg h]
  by_cases hspec : rules.specKey = some key
  · cases value <;> simp [opened?, hspec, Json.isObject, Json.members, fieldMembers]
  · cases value <;> simp [opened?, hspec, fieldMembers]

theorem hoistedMembers_targets {key : String} (value : Json) (h : ¬ rules.Marks marker key) :
    hoistedMembers (rules.targets marker (key, value)) = [] := by
  rw [targets, if_neg h]
  split
  · exact hoistedMembers_field _
  · rfl

/-- Distributing properties fills their targets. Nothing is asked of the fields, but what goes into
`metadata` has names of its own. -/
theorem distribute_answersIfDistinct (props : Members) {metadata fields : Members}
    (hmetadata : ((metadata ++ hoistedMembers (props.flatMap (rules.targets marker))).map
      Prod.fst).Nodup)
    (hfields : (fields.map Prod.fst).Nodup) :
    AnswersIfDistinct ((fields ++ fieldMembers (props.flatMap (rules.targets marker))).map Prod.fst)
      (metadata ++ hoistedMembers (props.flatMap (rules.targets marker)),
        fields ++ fieldMembers (props.flatMap (rules.targets marker)))
      (rules.distribute marker metadata fields props) := by
  induction props generalizing metadata fields with
  | nil =>
    simpa [hoistedMembers, fieldMembers, distribute] using
      AnswersIfDistinct.pure hfields (metadata, fields)
  | cons entry rest ih =>
    rcases entry with ⟨key, value⟩
    rw [List.flatMap_cons, hoistedMembers_append] at hmetadata ⊢
    rw [fieldMembers_append, distribute, hoisted?_eq]
    by_cases hmarks : rules.Marks marker key
    · have hhere : rules.targets marker (key, value) =
          [(.inMetadata (String.ofList (key.toList.drop marker.toList.length)), value)] :=
        if_pos hmarks
      have hfield : fieldMembers (rules.targets marker (key, value)) = [] := by
        rw [hhere]
        rfl
      have hhoisted : hoistedMembers (rules.targets marker (key, value)) =
          [(String.ofList (key.toList.drop marker.toList.length), value)] := by
        rw [hhere]
        rfl
      rw [hhoisted, List.singleton_append] at hmetadata ⊢
      rw [hfield, List.nil_append, if_pos hmarks]
      dsimp only
      rw [insertNew_of_not_mem value (Members.not_mem_of_nodup hmetadata),
        List.append_cons metadata]
      exact ih (List.append_cons metadata _ _ ▸ hmetadata) hfields
    · rw [if_neg hmarks, hoistedMembers_targets value hmarks, fieldMembers_targets value hmarks,
        List.nil_append]
      rw [hoistedMembers_targets value hmarks, List.nil_append] at hmetadata
      dsimp only
      cases hopened : rules.opened? key value with
      | some members =>
        dsimp only
        refine (insertAllNew_answersIfDistinct members hfields).bind ?_ fun hnodup ↦ ?_
        · exact List.Sublist.map _ (by simp)
        · simpa using ih hmetadata hnodup
      | none =>
        dsimp only
        refine (insertNew_answersIfDistinct hfields key value).bind ?_ fun hnodup ↦ ?_
        · exact List.Sublist.map _ (by simp)
        · simpa using ih hmetadata hnodup

theorem append_drop_of_marks {key : String} (h : rules.Marks marker key) :
    marker ++ String.ofList (key.toList.drop marker.toList.length) = key := by
  rw [← String.toList_inj, String.toList_append, String.toList_ofList]
  exact List.prefix_iff_eq_append.mp h.2.2

/-- Hoisted members with the marker in front of their names are properties, in their order. -/
theorem map_hoistedMembers_sublist (props : Members) :
    (((hoistedMembers (props.flatMap (rules.targets marker))).map Prod.fst).map
      (marker ++ ·)).Sublist (props.map Prod.fst) := by
  induction props with
  | nil => exact List.Sublist.refl _
  | cons entry rest ih =>
    rcases entry with ⟨key, value⟩
    rw [List.flatMap_cons, hoistedMembers_append, List.map_append, List.map_append, List.map_cons]
    by_cases hmarks : rules.Marks marker key
    · rw [targets, if_pos hmarks]
      change ((marker ++ _) :: _).Sublist _
      rw [append_drop_of_marks hmarks]
      exact ih.cons_cons key
    · rw [hoistedMembers_targets value hmarks]
      exact ih.cons key

theorem nodup_hoistedMembers {props : Members} (h : (props.map Prod.fst).Nodup) :
    ((hoistedMembers (props.flatMap (rules.targets marker))).map Prod.fst).Nodup :=
  (h.sublist (map_hoistedMembers_sublist props)).of_map _

/-- Expanding properties fills their targets, unless two of these are one field. -/
theorem expand_answersIfDistinct {props : Members} (h : (props.map Prod.fst).Nodup) :
    AnswersIfDistinct ((filled (props.flatMap (rules.targets marker))).map Prod.fst)
      (filled (props.flatMap (rules.targets marker))) (rules.expand marker props) := by
  have hdistribute : AnswersIfDistinct
      ((fieldMembers (props.flatMap (rules.targets marker))).map Prod.fst)
      (hoistedMembers (props.flatMap (rules.targets marker)),
        fieldMembers (props.flatMap (rules.targets marker)))
      (rules.distribute marker [] [] props) :=
    @distribute_answersIfDistinct rules marker props [] [] (nodup_hoistedMembers h) List.nodup_nil
  refine hdistribute.bind (List.Sublist.map _ (List.sublist_append_right _ _)) fun hnodup ↦ ?_
  dsimp only
  unfold filled
  split
  · exact .pure hnodup _
  · exact insertAllNew_answersIfDistinct _ (List.nodup_singleton _)

theorem duplicate_filled_iff {targets : List (Target × Json)} {key : String} :
    ((filled targets).map Prod.fst).Duplicate key ↔
      ((fieldMembers targets).map Prod.fst).Duplicate key ∨
        hoistedMembers targets ≠ [] ∧ key = metadataKey ∧
          key ∈ (fieldMembers targets).map Prod.fst := by
  unfold filled
  by_cases h : hoistedMembers targets = []
  · simp [h]
  · rw [if_neg (by simpa using h), List.singleton_append, List.map_cons, List.duplicate_cons_iff]
    simp only [ne_eq, h, not_false_eq_true, true_and, eq_comm (a := metadataKey)]
    exact Or.comm

theorem nodup_filled_iff {targets : List (Target × Json)} :
    ((filled targets).map Prod.fst).Nodup ↔
      ((fieldMembers targets).map Prod.fst).Nodup ∧
        (hoistedMembers targets ≠ [] → metadataKey ∉ (fieldMembers targets).map Prod.fst) := by
  unfold filled
  by_cases h : hoistedMembers targets = []
  · simp [h]
  · rw [if_neg (by simpa using h), List.singleton_append, List.map_cons, List.nodup_cons]
    simp [h, and_comm]

/-- Expanding succeeds exactly when no two targets are one field, `metadata` being one as soon as a
property is hoisted. The fields are then the targets with their values, `metadata` first and the
others in the order of the properties. Otherwise the failure names a field that two of them share.
-/
theorem expand_fills_targets (rules : FieldRules) (marker : String) {props : Members}
    (h : (props.map Prod.fst).Nodup) :
    let targets := props.flatMap (rules.targets marker)
    let fieldKeys := (fieldMembers targets).map Prod.fst
    ((∃ fields, rules.expand marker props = .ok fields) ↔
      fieldKeys.Nodup ∧ (hoistedMembers targets ≠ [] → metadataKey ∉ fieldKeys)) ∧
    (∀ fields, rules.expand marker props = .ok fields → fields = filled targets) ∧
    ∀ failure, rules.expand marker props = .error failure →
      ∃ key, failure = .occupied (.ofKeys [key]) ∧
        (fieldKeys.Duplicate key ∨
          hoistedMembers targets ≠ [] ∧ key = metadataKey ∧ key ∈ fieldKeys) := by
  intro targets fieldKeys
  have hexpand : AnswersIfDistinct ((filled targets).map Prod.fst) (filled targets)
      (rules.expand marker props) := expand_answersIfDistinct h
  refine ⟨hexpand.exists_ok_iff.trans nodup_filled_iff, fun _ ↦ hexpand.eq_of_ok,
    fun failure hfailure ↦ ?_⟩
  have hnodup : ¬ ((filled targets).map Prod.fst).Nodup := by
    intro hnodup
    cases hfailure.symm.trans (hexpand.ok hnodup)
  obtain ⟨key, hduplicate, herror⟩ := hexpand.error hnodup
  exact ⟨key, Except.error.inj (hfailure.symm.trans herror), duplicate_filled_iff.mp hduplicate⟩

/-- A hoisted name, an opened object and a plain property fill three fields; with a property called
`metadata` beside the hoisted name there is no room. -/
theorem expand_fills_targets_widget :
    let rules : FieldRules := ⟨true, some "spec"⟩
    let name : String × Json := ("@name", .string "w")
    let spec : String × Json := ("spec", .object [("size", .null)])
    let own : String × Json := ("metadata", .bool true)
    rules.expand "@" [("note", .null), spec, name] =
        .ok [("metadata", .object [("name", .string "w")]), ("note", .null), ("size", .null)] ∧
      rules.expand "@" [own, name] = .error (.occupied (.ofKeys ["metadata"])) := by
  intro rules name spec own
  have hfirst := @expand_fills_targets rules "@" [("note", .null), spec, name] (by decide)
  have hsecond := @expand_fills_targets rules "@" [own, name] (by decide)
  constructor
  · obtain ⟨fields, hfields⟩ := hfirst.1.mpr (by decide)
    rw [hfields, hfirst.2.1 fields hfields]
    rfl
  · cases hexpand : rules.expand "@" [own, name] with
    | ok fields => exact absurd (hsecond.1.mp ⟨fields, hexpand⟩) (by decide)
    | error failure =>
      obtain ⟨key, rfl, hkey⟩ := hsecond.2.2 failure hexpand
      rcases hkey with hduplicate | ⟨-, rfl, -⟩
      · exact absurd hduplicate (List.not_duplicate_singleton _ _)
      · rfl

/-! ## Contracting and expanding -/

/-- The field is a `metadata` object whose members become properties of their own. -/
def Flattens (rules : FieldRules) (marker : String) (entry : String × Json) : Prop :=
  rules.hoistsMetadata ∧ marker ≠ "" ∧ ¬ rules.Marks marker entry.1 ∧ entry.1 = metadataKey ∧
    entry.2.isObject ∧ entry.2.members.isEmpty = false

instance (rules : FieldRules) (marker : String) (entry : String × Json) :
    Decidable (rules.Flattens marker entry) :=
  inferInstanceAs (Decidable (_ ∧ _ ∧ _ ∧ _ ∧ _ ∧ _))

def Remains (rules : FieldRules) (marker : String) (entry : String × Json) : Prop :=
  ¬ rules.Marks marker entry.1 ∧ ¬ rules.Flattens marker entry

instance (rules : FieldRules) (marker : String) (entry : String × Json) :
    Decidable (rules.Remains marker entry) :=
  inferInstanceAs (Decidable (_ ∧ _))

theorem flattens_iff {entry : String × Json} :
    rules.Flattens marker entry ↔
      ¬ rules.Marks marker entry.1 ∧ (rules.flattened? marker entry.1 entry.2).isSome := by
  rcases entry with ⟨key, value⟩
  have hhoists := @hoistsWith_iff rules marker
  cases value with
  | object members =>
    simp only [Flattens, flattened?, Json.isObject, Json.members, Option.isSome_ite,
      Bool.and_eq_true, beq_iff_eq, Bool.not_eq_true', hhoists]
    tauto
  | _ => simp [Flattens, flattened?, Json.isObject]

theorem isPlain_iff {entry : String × Json} :
    rules.isPlain marker entry ↔ rules.Remains marker entry := by
  rw [Remains, flattens_iff, ← isMarked_iff, isPlain]
  cases rules.isMarked marker entry <;> simp

/-- The flattened field is the `metadata` object that the hoisted members came from. -/
theorem filter_flattens {fields : Members} (h : (fields.map Prod.fst).Nodup) :
    fields.filter (fun entry ↦ rules.Flattens marker entry) =
      if (rules.hoistedOf marker fields).isEmpty then []
      else [(metadataKey, .object (rules.hoistedOf marker fields))] := by
  induction fields with
  | nil =>
    rw [hoistedOf_of_not_mem (by simp)]
    rfl
  | cons entry rest ih =>
    rcases entry with ⟨key, value⟩
    rw [List.map_cons, List.nodup_cons] at h
    by_cases hmarked : rules.isMarked marker (key, value)
    · have hnot : ¬ rules.Flattens marker (key, value) := fun hflattens ↦
        hflattens.2.2.1 (isMarked_iff.mp hmarked)
      rw [List.filter_cons_of_neg (by simpa using hnot), ih h.2,
        hoistedOf_cons_of_isMarked rest hmarked]
    · cases hflattened : rules.flattened? marker key value with
      | none =>
        have hnot : ¬ rules.Flattens marker (key, value) := by simp [flattens_iff, hflattened]
        rw [List.filter_cons_of_neg (by simpa using hnot), ih h.2,
          hoistedOf_cons_of_flattened?_eq_none h.1 hflattened]
      | some members =>
        have hflattens : rules.Flattens marker (key, value) :=
          flattens_iff.mpr ⟨isMarked_iff.not.mp hmarked, by simp [hflattened]⟩
        obtain ⟨rfl, -, rfl, hmembers⟩ := flattened?_eq_some hflattened
        rw [List.filter_cons_of_pos (by simpa using hflattens), ih h.2,
          hoistedOf_of_not_mem h.1,
          hoistedOf_cons_of_flattened? rest (by simpa using hmarked) hflattened]
        simp [hmembers]

/-- Properties that are all hoisted expand into `metadata` alone. -/
theorem expand_of_marks {props fields : Members} (hnodup : (props.map Prod.fst).Nodup)
    (hprops : props ≠ []) (hmarks : ∀ entry ∈ props, rules.Marks marker entry.1)
    (hexpand : rules.expand marker props = .ok fields) :
    ∃ members, members ≠ [] ∧ fields = [(metadataKey, .object members)] := by
  have htargets (entry : String × Json) (hmem : entry ∈ props) :
      ∃ name, rules.targets marker entry = [(.inMetadata name, entry.2)] :=
    ⟨_, if_pos (hmarks entry hmem)⟩
  have hfields : fieldMembers (props.flatMap (rules.targets marker)) = [] := by
    refine List.filterMap_eq_nil_iff.mpr fun target hmem ↦ ?_
    obtain ⟨entry, hentry, htarget⟩ := List.mem_flatMap.mp hmem
    obtain ⟨name, hname⟩ := htargets entry hentry
    rw [hname] at htarget
    rw [List.mem_singleton.mp htarget]
  have hhoisted : hoistedMembers (props.flatMap (rules.targets marker)) ≠ [] := by
    obtain ⟨entry, rest, rfl⟩ := List.exists_cons_of_ne_nil hprops
    obtain ⟨name, hname⟩ := htargets entry List.mem_cons_self
    rw [List.flatMap_cons, hname, hoistedMembers_append]
    exact List.cons_ne_nil (name, entry.2) _
  refine ⟨_, hhoisted, ?_⟩
  rw [(expand_answersIfDistinct hnodup).eq_of_ok hexpand, filled, hfields,
    if_neg (by simpa using hhoisted), List.append_nil]

theorem nodup_metadata {fields : Members} (h : (Json.object fields).WellFormed) :
    ∀ members, fields.get? metadataKey = some (.object members) → (members.map Prod.fst).Nodup :=
  fun _ hget ↦ (h.member hget).nodup

/-- With a marked spec key in use, all properties of contracted fields are hoisted. -/
theorem marks_contract {fields : Members} (h : (Json.object fields).WellFormed) {key : String}
    (hspec : rules.specKey = some key) (hmarks : rules.Marks marker key)
    (hplain : fields.filter (rules.isPlain marker) ≠ []) :
    ((rules.contract marker fields).props.map Prod.fst).Nodup ∧
      (rules.contract marker fields).props ≠ [] ∧
      ∀ entry ∈ (rules.contract marker fields).props, rules.Marks marker entry.1 := by
  have hmetadata := nodup_metadata h
  have hprops : (rules.contract marker fields).props =
      (mark marker (rules.hoistedOf marker fields)).insert key
        (.object (fields.filter (rules.isPlain marker))) := by
    rw [contract_eq_sorted h.nodup hmetadata, hspec]
    exact if_neg (by simpa using hplain)
  have hmarked : ((mark marker (rules.hoistedOf marker fields)).map Prod.fst).Nodup := by
    rw [map_fst_mark]
    exact (nodup_hoistedOf hmetadata).map (marked_injective marker)
  rw [hprops]
  refine ⟨Association.nodup_map_fst_insert _ _ hmarked, fun hnil ↦ ?_, fun entry hmem ↦ ?_⟩
  · have hfound := Association.get?_insert_self key
      (Json.object (fields.filter (rules.isPlain marker)))
      (mark marker (rules.hoistedOf marker fields))
    rw [show Association.insert _ _ _ = [] from hnil] at hfound
    cases hfound
  · rcases Association.mem_insert hmem with rfl | hinner
    · exact hmarks
    · obtain ⟨inner, -, rfl⟩ := List.mem_map.mp hinner
      refine ⟨hmarks.1, hmarks.2.1, ?_⟩
      rw [String.toList_append]
      exact List.prefix_append _ _

/-- Where no field remains, the spec key is not used. -/
theorem expand_contract_of_no_plain {fields : Members} (h : (Json.object fields).WellFormed)
    (hplain : fields.filter (rules.isPlain marker) = []) :
    rules.expand marker (rules.contract marker fields).props =
      .ok (if (rules.hoistedOf marker fields).isEmpty then []
        else [(metadataKey, .object (rules.hoistedOf marker fields))]) := by
  have hmetadata := nodup_metadata h
  have hprops : (rules.contract marker fields).props =
      mark marker (rules.hoistedOf marker fields) := by
    rw [contract_eq_sorted h.nodup hmetadata, hplain]
    cases rules.specKey <;> rfl
  have hexpand := @expand_mark_append rules marker (rules.hoistedOf marker fields) [] []
    (nodup_hoistedOf hmetadata) (fun hne ↦ (hoistedOf_spec hne).2.1) (fun _ ↦ rfl) List.nodup_nil
    (fun _ ↦ List.not_mem_nil)
  rw [hprops]
  simpa using hexpand

/-- Contracting sets aside exactly the marked fields, and expanding gives back exactly the others,
the flattened `metadata` first, unless the spec key is marked itself and has fields to hold. -/
theorem expand_contract_iff (rules : FieldRules) (marker : String) {fields : Members}
    (h : (Json.object fields).WellFormed) :
    (rules.contract marker fields).verbatim =
        fields.filter (fun entry ↦ rules.Marks marker entry.1) ∧
      (rules.expand marker (rules.contract marker fields).props =
          .ok (fields.filter (fun entry ↦ rules.Flattens marker entry) ++
            fields.filter (fun entry ↦ rules.Remains marker entry)) ↔
        ¬ ((∃ key, rules.specKey = some key ∧ rules.Marks marker key) ∧
          ∃ entry ∈ fields, rules.Remains marker entry)) := by
  have hmetadata := nodup_metadata h
  have hmarked : rules.isMarked marker = fun entry ↦ decide (rules.Marks marker entry.1) :=
    funext fun entry ↦ Bool.eq_iff_iff.mpr (isMarked_iff.trans decide_eq_true_iff.symm)
  have hplain : rules.isPlain marker = fun entry ↦ decide (rules.Remains marker entry) :=
    funext fun entry ↦ Bool.eq_iff_iff.mpr (isPlain_iff.trans decide_eq_true_iff.symm)
  have hremains : (∃ entry ∈ fields, rules.Remains marker entry) ↔
      fields.filter (rules.isPlain marker) ≠ [] := by
    simp [hplain, List.filter_eq_nil_iff]
  rw [hremains, ← hplain, ← hmarked, filter_flattens h.nodup]
  refine ⟨by rw [contract_eq_sorted h.nodup hmetadata], fun hexpand ↦ ?_, fun hnot ↦ ?_⟩
  · rintro ⟨⟨key, hspec, hmarks⟩, hne⟩
    obtain ⟨hnodup, hprops, hall⟩ := marks_contract h hspec hmarks hne
    obtain ⟨members, hmembers, heq⟩ := expand_of_marks hnodup hprops hall hexpand
    by_cases hempty : rules.hoistedOf marker fields = []
    · rw [hempty] at heq
      have hremains : (metadataKey, Json.object members) ∈
          fields.filter (rules.isPlain marker) := by
        change [] ++ _ = _ at heq
        rw [List.nil_append] at heq
        rw [heq]
        exact List.mem_singleton.mpr rfl
      obtain ⟨hunmarked, hnot⟩ := isPlain_iff.mp (List.mem_filter.mp hremains).2
      exact hnot ⟨hmarks.1, hmarks.2.1, hunmarked, rfl, rfl,
        List.isEmpty_eq_false_iff.mpr hmembers⟩
    · rw [if_neg (by simpa using hempty), List.singleton_append, List.cons.injEq] at heq
      exact hne heq.2
  · by_cases hne : fields.filter (rules.isPlain marker) = []
    · rw [hne, List.append_nil]
      exact expand_contract_of_no_plain h hne
    · refine expand_contract_eq h.nodup hmetadata fun key hspec ↦ ?_
      rw [hoisted?_eq, if_neg fun hmarks ↦ hnot ⟨⟨key, hspec, hmarks⟩, hne⟩]

/-- A name, a size and a raw note: the note is set aside, and the two others come back. Under a
spec key that is marked they do not. -/
theorem expand_contract_iff_widget :
    let fields : Members := [("size", .null), ("@raw", .bool true),
      ("metadata", .object [("name", .string "w")])]
    let restored : Members := [("metadata", .object [("name", .string "w")]), ("size", .null)]
    let rules : FieldRules := ⟨true, some "spec"⟩
    let marked : FieldRules := ⟨true, some "@spec"⟩
    (Json.object fields).WellFormed ∧
      (rules.contract "@" fields).verbatim = [("@raw", .bool true)] ∧
      rules.expand "@" (rules.contract "@" fields).props = .ok restored ∧
      marked.expand "@" (marked.contract "@" fields).props ≠ .ok restored := by
  intro fields restored rules marked
  have hwf : (Json.object fields).WellFormed := by
    simp [fields, Json.WellFormed, Json.MembersWellFormed]
  obtain ⟨hverbatim, hrules⟩ := expand_contract_iff rules "@" hwf
  obtain ⟨-, hmarked⟩ := expand_contract_iff marked "@" hwf
  refine ⟨hwf, hverbatim.trans rfl, hrules.mpr ?_, fun hexpand ↦ hmarked.mp hexpand ?_⟩
  · rintro ⟨⟨key, hkey, hmarks⟩, -⟩
    cases hkey
    exact absurd hmarks (by decide)
  · exact ⟨⟨"@spec", rfl, by decide⟩, ("size", .null), by simp [fields], by decide⟩

end ManifestTree.FieldRules
