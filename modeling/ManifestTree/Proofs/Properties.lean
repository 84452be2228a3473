import ManifestTree.FieldRules
import ManifestTree.Proofs.Association

/-!
# Properties that expand into the fields they came from

Contracting fields and expanding the properties again gives every field back that is not set aside
verbatim. Hoisted members return to `metadata` under the keys they had there, because the marker is
cut off as it was put in front; the spec key holds what is neither hoisted nor set aside, and is
opened again because it does not begin with the marker itself. Fields with a repeated key are left
out, and so is a spec key that begins with the marker.
-/

namespace ManifestTree

/-! ## Fresh keys -/

namespace Members

variable {members more rest : Members} {key : String} {value : Json}

theorem not_mem_of_nodup (h : ((members ++ (key, value) :: rest).map Prod.fst).Nodup) :
    key ∉ members.map Prod.fst := by
  rw [List.map_append, List.nodup_append] at h
  exact fun hmem ↦ h.2.2 key hmem key (by simp) rfl

theorem nodup_of_cons (h : ((members ++ (key, value) :: rest).map Prod.fst).Nodup) :
    ((members ++ rest).map Prod.fst).Nodup :=
  h.sublist (((List.sublist_cons_self _ rest).append_left members).map Prod.fst)

theorem extend_of_nodup (h : ((members ++ more).map Prod.fst).Nodup) :
    members.extend more = members ++ more := by
  induction more generalizing members with
  | nil => simp [extend]
  | cons entry rest ih =>
    rcases entry with ⟨key, value⟩
    rw [extend, insert, Association.insert_of_not_mem value (not_mem_of_nodup h),
      ih (by simpa using h), List.append_assoc, List.singleton_append]

end Members

namespace FieldRules

theorem insertNew_of_not_mem {members : Members} {key : String} (value : Json)
    (h : key ∉ members.map Prod.fst) :
    insertNew members key value = .ok (members ++ [(key, value)]) := by
  rw [insertNew, Members.has, Members.get?, Association.get?_eq_none_iff.mpr h]
  rfl

theorem insertAllNew_of_nodup {members more : Members}
    (h : ((members ++ more).map Prod.fst).Nodup) :
    insertAllNew members more = .ok (members ++ more) := by
  induction more generalizing members with
  | nil => simp [insertAllNew]
  | cons entry rest ih =>
    rcases entry with ⟨key, value⟩
    calc
      insertAllNew members ((key, value) :: rest) =
          insertAllNew (members ++ [(key, value)]) rest := by
        rw [insertAllNew, insertNew_of_not_mem value (Members.not_mem_of_nodup h)]
        rfl
      _ = .ok (members ++ [(key, value)] ++ rest) := ih (by simpa using h)
      _ = .ok (members ++ (key, value) :: rest) := by
        rw [List.append_assoc, List.singleton_append]

/-! ## The marker -/

/-- The marker that is put in front of a key is cut off again. -/
theorem afterMarker?_append (marker name : String) :
    afterMarker? marker (marker ++ name) = some name := by
  simp [afterMarker?, String.toList_append]

variable {rules : FieldRules} {marker : String}

theorem hoisted?_append (h : rules.hoistsWith marker) (name : String) :
    rules.hoisted? marker (marker ++ name) = some name := by
  rw [hoisted?, if_pos h, afterMarker?_append]

theorem marked_injective (marker : String) : Function.Injective (marker ++ ·) := by
  intro x y h
  have hlist := congrArg String.toList h
  simp only [String.toList_append] at hlist
  exact String.toList_inj.mp (List.append_cancel_left hlist)

def mark (marker : String) (members : Members) : Members :=
  members.map fun (name, value) ↦ (marker ++ name, value)

theorem map_fst_mark (marker : String) (members : Members) :
    (mark marker members).map Prod.fst = (members.map Prod.fst).map (marker ++ ·) := by
  simp [mark, Function.comp_def]

/-! ## Sorting fields -/

/-- A field that would be hoisted if it were written as a property. -/
def isMarked (rules : FieldRules) (marker : String) (entry : String × Json) : Bool :=
  (rules.hoisted? marker entry.1).isSome

def isPlain (rules : FieldRules) (marker : String) (entry : String × Json) : Bool :=
  !rules.isMarked marker entry && (rules.flattened? marker entry.1 entry.2).isNone

/-- The members of `metadata` that become properties of their own. -/
def hoistedOf (rules : FieldRules) (marker : String) (fields : Members) : Members :=
  if (rules.hoisted? marker metadataKey).isSome then []
  else ((fields.get? metadataKey).bind (rules.flattened? marker metadataKey)).getD []

theorem flattened?_eq_some {key : String} {value : Json} {members : Members}
    (h : rules.flattened? marker key value = some members) :
    value = .object members ∧ rules.hoistsWith marker ∧ key = metadataKey ∧ members ≠ [] := by
  cases value with
  | object inner =>
    rw [flattened?, Option.ite_none_right_eq_some] at h
    obtain ⟨hcond, heq⟩ := h
    cases heq
    simpa [and_assoc] using hcond
  | _ => cases h

theorem hoistedOf_cons_of_ne {key : String} (h : key ≠ metadataKey) (value : Json)
    (rest : Members) :
    rules.hoistedOf marker ((key, value) :: rest) = rules.hoistedOf marker rest := by
  rw [hoistedOf, hoistedOf, Members.get?, Association.get?_cons_of_ne h]
  rfl

theorem hoistedOf_of_not_mem {fields : Members} (h : metadataKey ∉ fields.map Prod.fst) :
    rules.hoistedOf marker fields = [] := by
  rw [hoistedOf, Members.get?, Association.get?_eq_none_iff.mpr h]
  split <;> rfl

theorem hoistedOf_cons_of_isMarked {key : String} {value : Json} (rest : Members)
    (h : rules.isMarked marker (key, value)) :
    rules.hoistedOf marker ((key, value) :: rest) = rules.hoistedOf marker rest := by
  by_cases hkey : key = metadataKey
  · subst hkey
    have hsome : (rules.hoisted? marker metadataKey).isSome := h
    rw [hoistedOf, hoistedOf, if_pos hsome, if_pos hsome]
  · exact hoistedOf_cons_of_ne hkey value rest

theorem hoistedOf_cons_of_flattened?_eq_none {key : String} {value : Json} {rest : Members}
    (hkey : key ∉ rest.map Prod.fst) (h : rules.flattened? marker key value = none) :
    rules.hoistedOf marker ((key, value) :: rest) = rules.hoistedOf marker rest := by
  by_cases hmetadata : key = metadataKey
  · subst hmetadata
    rw [hoistedOf_of_not_mem hkey, hoistedOf, Members.get?, Association.get?_cons_self,
      Option.bind_some, h]
    split <;> rfl
  · exact hoistedOf_cons_of_ne hmetadata value rest

theorem hoistedOf_cons_of_flattened? {value : Json} {members : Members} (rest : Members)
    (hmarked : rules.isMarked marker (metadataKey, value) = false)
    (h : rules.flattened? marker metadataKey value = some members) :
    rules.hoistedOf marker ((metadataKey, value) :: rest) = members := by
  have hnone : ¬ (rules.hoisted? marker metadataKey).isSome = true := Bool.eq_false_iff.mp hmarked
  rw [hoistedOf, if_neg hnone, Members.get?, Association.get?_cons_self, Option.bind_some, h,
    Option.getD_some]

/-- Fields with distinct keys are sorted in one sweep, in their order. -/
theorem sort_eq {fields props verbatim plain : Members}
    (hverbatim : ((verbatim ++ fields).map Prod.fst).Nodup)
    (hplain : ((plain ++ fields).map Prod.fst).Nodup) :
    rules.sort marker props verbatim plain fields =
      (props.extend (mark marker (rules.hoistedOf marker fields)),
        verbatim ++ fields.filter (rules.isMarked marker),
        plain ++ fields.filter (rules.isPlain marker)) := by
  induction fields generalizing props verbatim plain with
  | nil =>
    have hnone : rules.hoistedOf marker [] = [] := hoistedOf_of_not_mem (by simp)
    simp [sort, hnone, mark, Members.extend]
  | cons entry rest ih =>
    rcases entry with ⟨key, value⟩
    have hrest : key ∉ rest.map Prod.fst := by
      rw [List.map_append, List.nodup_append, List.map_cons, List.nodup_cons] at hplain
      exact hplain.2.1.1
    rw [sort]
    cases hmarked : rules.isMarked marker (key, value) with
    | true =>
      have hsome : (rules.hoisted? marker key).isSome := hmarked
      have hisPlain : rules.isPlain marker (key, value) = false := by simp [isPlain, hmarked]
      rw [if_pos hsome, Members.insert,
        Association.insert_of_not_mem value (Members.not_mem_of_nodup hverbatim),
        ih (by simpa using hverbatim) (Members.nodup_of_cons hplain),
        hoistedOf_cons_of_isMarked rest hmarked, List.filter_cons_of_pos hmarked,
        List.filter_cons_of_neg (by simp [hisPlain]), List.append_assoc, List.singleton_append]
    | false =>
      have hnone : ¬ (rules.hoisted? marker key).isSome = true := Bool.eq_false_iff.mp hmarked
      rw [if_neg hnone, List.filter_cons_of_neg (by simp [hmarked])]
      cases hflattened : rules.flattened? marker key value with
      | none =>
        have hisPlain : rules.isPlain marker (key, value) = true := by
          simp [isPlain, hmarked, hflattened]
        dsimp only
        rw [Members.insert,
          Association.insert_of_not_mem value (Members.not_mem_of_nodup hplain),
          ih (Members.nodup_of_cons hverbatim) (by simpa using hplain),
          hoistedOf_cons_of_flattened?_eq_none hrest hflattened,
          List.filter_cons_of_pos hisPlain, List.append_assoc, List.singleton_append]
      | some members =>
        obtain ⟨rfl, -, rfl, -⟩ := flattened?_eq_some hflattened
        have hisPlain : rules.isPlain marker (metadataKey, .object members) = false := by
          simp [isPlain, hflattened]
        dsimp only
        rw [ih (Members.nodup_of_cons hverbatim) (Members.nodup_of_cons hplain),
          hoistedOf_cons_of_flattened? rest hmarked hflattened, hoistedOf_of_not_mem hrest,
          List.filter_cons_of_neg (by simp [hisPlain])]
        rfl

/-! ## Properties of sorted fields -/

theorem hoistedOf_spec {fields : Members} (h : rules.hoistedOf marker fields ≠ []) :
    fields.get? metadataKey = some (.object (rules.hoistedOf marker fields)) ∧
      rules.hoistsWith marker ∧ rules.hoisted? marker metadataKey = none := by
  cases hmarked : rules.hoisted? marker metadataKey with
  | some inner => simp [hoistedOf, hmarked] at h
  | none =>
    have heq : rules.hoistedOf marker fields =
        ((fields.get? metadataKey).bind (rules.flattened? marker metadataKey)).getD [] := by
      simp [hoistedOf, hmarked]
    rw [heq] at h ⊢
    cases hget : fields.get? metadataKey with
    | none => simp [hget] at h
    | some value =>
      cases hflattened : rules.flattened? marker metadataKey value with
      | none => simp [hget, hflattened] at h
      | some members =>
        obtain ⟨rfl, hhoists, -, -⟩ := flattened?_eq_some hflattened
        simp [hflattened, hhoists]

theorem flattened?_eq_none_of_hoistedOf {fields : Members} {key : String} {value : Json}
    (h : rules.hoistedOf marker fields = []) (hget : fields.get? key = some value)
    (hkey : rules.hoisted? marker key = none) : rules.flattened? marker key value = none := by
  cases hflattened : rules.flattened? marker key value with
  | none => rfl
  | some members =>
    obtain ⟨rfl, -, rfl, hmembers⟩ := flattened?_eq_some hflattened
    simp only [hoistedOf, hkey, hget, hflattened, Option.bind_some, Option.getD_some] at h
    exact absurd h hmembers

theorem unmarked_of_mem_plain {fields : Members} {entry : String × Json}
    (h : entry ∈ fields.filter (rules.isPlain marker)) : rules.hoisted? marker entry.1 = none := by
  have hisPlain := (List.mem_filter.mp h).2
  simp only [isPlain, isMarked, Bool.and_eq_true, Bool.not_eq_true', Option.isSome_eq_false_iff,
    Option.isNone_iff_eq_none] at hisPlain
  exact hisPlain.1

/-- A plain field is found among the plain ones, unless it is the flattened `metadata`. -/
theorem get?_plain {fields : Members} {key : String} (hkeys : (fields.map Prod.fst).Nodup)
    (hflattened : ∀ value, fields.get? key = some value → rules.hoisted? marker key = none →
      rules.flattened? marker key value = none) :
    Members.get? (fields.filter (rules.isPlain marker)) key =
      if (rules.hoisted? marker key).isSome then none else fields.get? key := by
  rw [Members.get?, Association.get?_filter key _ hkeys]
  change (fields.get? key).filter _ = _
  cases hget : fields.get? key with
  | none => simp
  | some value =>
    cases hmarked : rules.hoisted? marker key with
    | some inner => simp [isPlain, isMarked, hmarked]
    | none => simp [isPlain, isMarked, hmarked, hflattened value hget hmarked]

/-- A flattened `metadata` is no plain field. -/
theorem metadataKey_not_mem_plain {fields : Members} (hkeys : (fields.map Prod.fst).Nodup)
    (h : rules.hoistedOf marker fields ≠ []) :
    metadataKey ∉ (fields.filter (rules.isPlain marker)).map Prod.fst := by
  obtain ⟨hget, hhoists, -⟩ := hoistedOf_spec h
  intro hmem
  obtain ⟨entry, hentry, heq⟩ := List.mem_map.mp hmem
  obtain ⟨hfields, hisPlain⟩ := List.mem_filter.mp hentry
  have hvalue : fields.get? entry.1 = some entry.2 :=
    Association.get?_eq_some_of_mem hkeys hfields
  rw [heq, hget, Option.some.injEq] at hvalue
  simp [isPlain, heq, ← hvalue, flattened?, hhoists, h] at hisPlain

/-- The property or properties that the plain fields become. -/
def plainProps (rules : FieldRules) (plain : Members) : Members :=
  match rules.specKey with
  | some key => if plain.isEmpty then [] else [(key, .object plain)]
  | none => plain

theorem plainProps_unmarked {plain : Members}
    (hspec : ∀ key, rules.specKey = some key → rules.hoisted? marker key = none)
    (hplain : ∀ entry ∈ plain, rules.hoisted? marker entry.1 = none) :
    ∀ entry ∈ rules.plainProps plain, rules.hoisted? marker entry.1 = none := by
  intro entry hmem
  unfold plainProps at hmem
  cases hkey : rules.specKey with
  | none =>
    rw [hkey] at hmem
    exact hplain entry hmem
  | some key =>
    rw [hkey] at hmem
    cases plain with
    | nil => cases hmem
    | cons first rest =>
      rw [List.mem_singleton.mp hmem]
      exact hspec key hkey

theorem nodup_plainProps {plain : Members} (h : (plain.map Prod.fst).Nodup) :
    ((rules.plainProps plain).map Prod.fst).Nodup := by
  unfold plainProps
  split
  · split <;> simp
  · exact h

/-- Keys with the marker in front differ from each other and from unmarked keys. -/
theorem nodup_mark_append {inner more : Members} (hinner : (inner.map Prod.fst).Nodup)
    (hmore : (more.map Prod.fst).Nodup) (hhoists : inner ≠ [] → rules.hoistsWith marker)
    (hunmarked : ∀ entry ∈ more, rules.hoisted? marker entry.1 = none) :
    ((mark marker inner ++ more).map Prod.fst).Nodup := by
  rw [List.map_append, List.nodup_append, map_fst_mark]
  refine ⟨hinner.map (marked_injective marker), hmore, ?_⟩
  rintro _ hmarked _ hother rfl
  obtain ⟨name, hname, hkey⟩ := List.mem_map.mp hmarked
  obtain ⟨entry, hentry, rfl⟩ := List.mem_map.mp hother
  have hne : inner ≠ [] := by
    rintro rfl
    cases hname
  have hnone := hunmarked entry hentry
  rw [← hkey] at hnone
  cases (hoisted?_append (hhoists hne) name).symm.trans hnone

theorem nodup_hoistedOf {fields : Members}
    (hmetadata : ∀ members, fields.get? metadataKey = some (.object members) →
      (members.map Prod.fst).Nodup) :
    ((rules.hoistedOf marker fields).map Prod.fst).Nodup := by
  by_cases h : rules.hoistedOf marker fields = []
  · simp [h]
  · exact hmetadata _ (hoistedOf_spec h).1

/-- Contracting sorts the fields and puts the plain ones under the spec key, if there is one. -/
theorem contract_eq_sorted {fields : Members} (hkeys : (fields.map Prod.fst).Nodup)
    (hmetadata : ∀ members, fields.get? metadataKey = some (.object members) →
      (members.map Prod.fst).Nodup) :
    let marked := mark marker (rules.hoistedOf marker fields)
    let plain := fields.filter (rules.isPlain marker)
    rules.contract marker fields =
      ⟨match rules.specKey with
        | some key => if plain.isEmpty then marked else marked.insert key (.object plain)
        | none => marked.extend plain,
      fields.filter (rules.isMarked marker)⟩ := by
  intro marked plain
  have hhoisted := @nodup_hoistedOf rules marker fields hmetadata
  have hsort := @sort_eq rules marker fields [] [] [] hkeys hkeys
  have hmark : Members.extend [] marked = marked := by
    apply Members.extend_of_nodup
    rw [List.nil_append, map_fst_mark]
    exact hhoisted.map (marked_injective marker)
  rw [hmark, List.nil_append, List.nil_append] at hsort
  rw [contract, hsort]
  cases rules.specKey with
  | none => rfl
  | some key =>
    dsimp only
    split <;> rfl

theorem contract_eq {fields : Members} (hkeys : (fields.map Prod.fst).Nodup)
    (hmetadata : ∀ members, fields.get? metadataKey = some (.object members) →
      (members.map Prod.fst).Nodup)
    (hspec : ∀ key, rules.specKey = some key → rules.hoisted? marker key = none) :
    rules.contract marker fields =
      ⟨mark marker (rules.hoistedOf marker fields) ++
          rules.plainProps (fields.filter (rules.isPlain marker)),
        fields.filter (rules.isMarked marker)⟩ := by
  have hnodup : ((mark marker (rules.hoistedOf marker fields) ++
      rules.plainProps (fields.filter (rules.isPlain marker))).map Prod.fst).Nodup :=
    nodup_mark_append (nodup_hoistedOf hmetadata)
      (nodup_plainProps (hkeys.sublist (List.filter_sublist.map _)))
      (fun h ↦ (hoistedOf_spec h).2.1)
      (plainProps_unmarked hspec fun _ hmem ↦ unmarked_of_mem_plain hmem)
  rw [contract_eq_sorted hkeys hmetadata]
  unfold plainProps at hnodup ⊢
  cases hkey : rules.specKey with
  | none =>
    rw [hkey] at hnodup
    dsimp only at hnodup ⊢
    rw [Members.extend_of_nodup hnodup]
  | some key =>
    rw [hkey] at hnodup
    dsimp only at hnodup ⊢
    split
    · rw [List.append_nil]
    · next hempty =>
      rw [if_neg hempty] at hnodup
      rw [Members.insert, Association.insert_of_not_mem _ (Members.not_mem_of_nodup hnodup)]

/-! ## Expanding again -/

theorem distribute_mark {metadata fields inner more : Members}
    (hnodup : ((metadata ++ inner).map Prod.fst).Nodup)
    (hhoists : inner ≠ [] → rules.hoistsWith marker) :
    rules.distribute marker metadata fields (mark marker inner ++ more) =
      rules.distribute marker (metadata ++ inner) fields more := by
  induction inner generalizing metadata with
  | nil => rw [List.append_nil, mark, List.map_nil, List.nil_append]
  | cons entry rest ih =>
    rcases entry with ⟨name, value⟩
    have hcons : mark marker ((name, value) :: rest) ++ more =
        (marker ++ name, value) :: (mark marker rest ++ more) := rfl
    calc
      rules.distribute marker metadata fields (mark marker ((name, value) :: rest) ++ more) =
          rules.distribute marker (metadata ++ [(name, value)]) fields
            (mark marker rest ++ more) := by
        rw [hcons, distribute, hoisted?_append (hhoists (by simp))]
        dsimp only
        rw [insertNew_of_not_mem value (Members.not_mem_of_nodup hnodup)]
        rfl
      _ = rules.distribute marker (metadata ++ [(name, value)] ++ rest) fields more :=
        ih (by simpa using hnodup) fun _ ↦ hhoists (by simp)
      _ = rules.distribute marker (metadata ++ (name, value) :: rest) fields more := by
        rw [List.append_assoc, List.singleton_append]

/-- Unmarked properties without a spec key among them are fields as they are. -/
theorem distribute_plain {metadata fields more : Members} (hspec : rules.specKey = none)
    (hnodup : ((fields ++ more).map Prod.fst).Nodup)
    (hunmarked : ∀ entry ∈ more, rules.hoisted? marker entry.1 = none) :
    rules.distribute marker metadata fields more = .ok (metadata, fields ++ more) := by
  induction more generalizing fields with
  | nil => rw [distribute, List.append_nil]
  | cons entry rest ih =>
    rcases entry with ⟨key, value⟩
    have hopened : rules.opened? key value = none := by
      cases value <;> simp [opened?, hspec]
    have hrest : ∀ entry ∈ rest, rules.hoisted? marker entry.1 = none := fun entry hmem ↦
      hunmarked entry (List.mem_cons_of_mem _ hmem)
    calc
      rules.distribute marker metadata fields ((key, value) :: rest) =
          rules.distribute marker metadata (fields ++ [(key, value)]) rest := by
        rw [distribute, hunmarked _ List.mem_cons_self, hopened,
          insertNew_of_not_mem value (Members.not_mem_of_nodup hnodup)]
        rfl
      _ = .ok (metadata, fields ++ [(key, value)] ++ rest) := ih (by simpa using hnodup) hrest
      _ = .ok (metadata, fields ++ (key, value) :: rest) := by
        rw [List.append_assoc, List.singleton_append]

theorem distribute_plainProps {metadata plain : Members} (hnodup : (plain.map Prod.fst).Nodup)
    (hspec : ∀ key, rules.specKey = some key → rules.hoisted? marker key = none)
    (hunmarked : ∀ entry ∈ plain, rules.hoisted? marker entry.1 = none) :
    rules.distribute marker metadata [] (rules.plainProps plain) = .ok (metadata, plain) := by
  unfold plainProps
  cases hkey : rules.specKey with
  | none => exact distribute_plain hkey hnodup hunmarked
  | some key =>
    cases plain with
    | nil => rfl
    | cons first rest =>
      have hopened : rules.opened? key (.object (first :: rest)) = some (first :: rest) := by
        simp [opened?, hkey]
      have hinsert : insertAllNew [] (first :: rest) = .ok (first :: rest) :=
        insertAllNew_of_nodup hnodup
      dsimp only [List.isEmpty_cons]
      rw [if_neg Bool.false_ne_true, distribute, hspec key hkey, hopened]
      dsimp only
      rw [hinsert]
      rfl

/-- Marked properties and further ones that are fields without `metadata` expand into both. -/
theorem expand_mark_append {inner more plain : Members} (hinner : (inner.map Prod.fst).Nodup)
    (hhoists : inner ≠ [] → rules.hoistsWith marker)
    (hmore : ∀ metadata, rules.distribute marker metadata [] more = .ok (metadata, plain))
    (hplain : (plain.map Prod.fst).Nodup)
    (hmetadata : inner ≠ [] → metadataKey ∉ plain.map Prod.fst) :
    rules.expand marker (mark marker inner ++ more) =
      .ok ((if inner.isEmpty then [] else [(metadataKey, .object inner)]) ++ plain) := by
  have hdistribute : rules.distribute marker [] [] (mark marker inner ++ more) =
      .ok (inner, plain) := by
    rw [distribute_mark (by simpa using hinner) hhoists, List.nil_append, hmore]
  rw [expand, hdistribute]
  change (if inner.isEmpty then _ else _) = _
  by_cases hempty : inner = []
  · rw [hempty]
    rfl
  · have hisEmpty : inner.isEmpty = false := List.isEmpty_eq_false_iff.mpr hempty
    have hnodup : (([(metadataKey, Json.object inner)] ++ plain).map Prod.fst).Nodup :=
      List.nodup_cons.mpr ⟨hmetadata hempty, hplain⟩
    rw [if_neg (by simp [hisEmpty]), if_neg (by simp [hisEmpty]), insertAllNew_of_nodup hnodup]

/-- Contracted fields expand into the flattened `metadata`, if there is one, and the plain ones. -/
theorem expand_contract_eq {fields : Members} (hkeys : (fields.map Prod.fst).Nodup)
    (hmetadata : ∀ members, fields.get? metadataKey = some (.object members) →
      (members.map Prod.fst).Nodup)
    (hspec : ∀ key, rules.specKey = some key → rules.hoisted? marker key = none) :
    rules.expand marker (rules.contract marker fields).props =
      .ok ((if (rules.hoistedOf marker fields).isEmpty then []
          else [(metadataKey, .object (rules.hoistedOf marker fields))]) ++
        fields.filter (rules.isPlain marker)) := by
  have hplainKeys : ((fields.filter (rules.isPlain marker)).map Prod.fst).Nodup :=
    hkeys.sublist (List.filter_sublist.map _)
  rw [contract_eq hkeys hmetadata hspec]
  exact expand_mark_append (nodup_hoistedOf hmetadata) (fun h ↦ (hoistedOf_spec h).2.1)
    (fun _ ↦ distribute_plainProps hplainKeys hspec fun _ hmem ↦ unmarked_of_mem_plain hmem)
    hplainKeys (metadataKey_not_mem_plain hkeys)

/-- Expanding contracted fields gives back those that are not set aside verbatim, each key once and
with its value. -/
theorem expand_contract {fields : Members} (hkeys : (fields.map Prod.fst).Nodup)
    (hmetadata : ∀ members, fields.get? metadataKey = some (.object members) →
      (members.map Prod.fst).Nodup)
    (hspec : ∀ key, rules.specKey = some key → rules.hoisted? marker key = none) :
    ∃ expanded, rules.expand marker (rules.contract marker fields).props = .ok expanded ∧
      (expanded.map Prod.fst).Nodup ∧
      ∀ key, expanded.get? key =
        if (rules.hoisted? marker key).isSome then none else fields.get? key := by
  have hplainKeys : ((fields.filter (rules.isPlain marker)).map Prod.fst).Nodup :=
    hkeys.sublist (List.filter_sublist.map _)
  have hexpand := expand_contract_eq hkeys hmetadata hspec
  by_cases hempty : rules.hoistedOf marker fields = []
  · rw [hempty] at hexpand
    refine ⟨_, hexpand, hplainKeys, fun key ↦ get?_plain hkeys fun value hget hkey ↦ ?_⟩
    exact flattened?_eq_none_of_hoistedOf hempty hget hkey
  · obtain ⟨hget, -, hkey⟩ := hoistedOf_spec hempty
    rw [if_neg (by simp [hempty])] at hexpand
    refine ⟨_, hexpand, ?_, fun key ↦ ?_⟩
    · exact List.nodup_cons.mpr ⟨metadataKey_not_mem_plain hkeys hempty, hplainKeys⟩
    · rw [Members.get?, List.singleton_append, Association.get?_cons]
      by_cases hmetadata : metadataKey = key
      · subst hmetadata
        rw [if_pos rfl, hkey, hget]
        rfl
      · rw [if_neg hmetadata]
        refine get?_plain hkeys fun value _ _ ↦ ?_
        cases hflattened : rules.flattened? marker key value with
        | none => rfl
        | some members => exact absurd (flattened?_eq_some hflattened).2.2.1.symm hmetadata

end FieldRules
end ManifestTree
