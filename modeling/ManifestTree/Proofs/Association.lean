import ManifestTree.Association
import Mathlib.Data.List.Nodup

/-!
# Looking up in association lists

Each operation is described by what later look-ups see. Inserting changes the value of one key and
keeps the order of the others, erasing takes one key away provided that it stands there once, and
grouping answers a key with the values that have it, in their order. Nothing is said about values
that stand behind an earlier entry of their key.
-/

namespace ManifestTree.Association

variable {κ ν : Type} [DecidableEq κ]

/-! ## Single entries -/

@[simp]
theorem get?_nil (key : κ) : get? key ([] : Association κ ν) = none := rfl

theorem get?_cons (key name : κ) (value : ν) (rest : Association κ ν) :
    get? key ((name, value) :: rest) = if name = key then some value else get? key rest := rfl

@[simp]
theorem get?_cons_self (key : κ) (value : ν) (rest : Association κ ν) :
    get? key ((key, value) :: rest) = some value := if_pos rfl

theorem get?_cons_of_ne {key name : κ} (h : name ≠ key) (value : ν) (rest : Association κ ν) :
    get? key ((name, value) :: rest) = get? key rest := if_neg h

theorem get?_eq_none_iff {key : κ} {entries : Association κ ν} :
    get? key entries = none ↔ key ∉ entries.map Prod.fst := by
  induction entries with
  | nil => simp
  | cons entry rest ih =>
    rcases entry with ⟨name, value⟩
    by_cases h : name = key
    · simp [h]
    · have h' : key ≠ name := fun heq ↦ h heq.symm
      simp [get?_cons, h, h', ih]

theorem mem_of_get?_eq_some {key : κ} {value : ν} {entries : Association κ ν}
    (h : get? key entries = some value) : (key, value) ∈ entries := by
  induction entries with
  | nil => simp at h
  | cons entry rest ih =>
    rcases entry with ⟨name, old⟩
    by_cases hname : name = key
    · subst hname
      rw [get?_cons_self, Option.some.injEq] at h
      subst h
      exact List.mem_cons_self
    · rw [get?_cons_of_ne hname] at h
      exact List.mem_cons_of_mem _ (ih h)

/-- A key that stands once is looked up wherever it stands. -/
theorem get?_eq_some_of_mem {key : κ} {value : ν} {entries : Association κ ν}
    (hkeys : (entries.map Prod.fst).Nodup) (h : (key, value) ∈ entries) :
    get? key entries = some value := by
  induction entries with
  | nil => simp at h
  | cons entry rest ih =>
    rcases entry with ⟨name, old⟩
    rw [List.map_cons, List.nodup_cons] at hkeys
    rcases List.mem_cons.mp h with heq | hrest
    · cases heq
      exact get?_cons_self key value rest
    · have hname : name ≠ key := by
        rintro rfl
        exact hkeys.1 (List.mem_map.mpr ⟨(name, value), hrest, rfl⟩)
      rw [get?_cons_of_ne hname]
      exact ih hkeys.2 hrest

/-! ## Inserting and erasing -/

theorem get?_insert (key other : κ) (value : ν) (entries : Association κ ν) :
    get? other (insert key value entries) =
      if key = other then some value else get? other entries := by
  induction entries with
  | nil => rfl
  | cons entry rest ih =>
    rcases entry with ⟨name, old⟩
    by_cases hname : name = key
    · subst hname
      by_cases hother : name = other <;> simp [insert, get?_cons, hother]
    · by_cases hother : name = other
      · subst hother
        have hkey : key ≠ name := fun heq ↦ hname heq.symm
        simp [insert, hname, hkey]
      · simp [insert, get?_cons, hname, hother, ih]

@[simp]
theorem get?_insert_self (key : κ) (value : ν) (entries : Association κ ν) :
    get? key (insert key value entries) = some value := by
  rw [get?_insert, if_pos rfl]

theorem get?_insert_of_ne {key other : κ} (h : key ≠ other) (value : ν)
    (entries : Association κ ν) :
    get? other (insert key value entries) = get? other entries := by
  rw [get?_insert, if_neg h]

theorem map_fst_insert (key : κ) (value : ν) (entries : Association κ ν) :
    (insert key value entries).map Prod.fst =
      if key ∈ entries.map Prod.fst then entries.map Prod.fst
      else entries.map Prod.fst ++ [key] := by
  induction entries with
  | nil => rfl
  | cons entry rest ih =>
    rcases entry with ⟨name, old⟩
    by_cases hname : name = key
    · simp [insert, hname]
    · have hkey : key ≠ name := fun heq ↦ hname heq.symm
      simp only [insert, if_neg hname, List.map_cons, ih, List.mem_cons, hkey, false_or]
      split <;> rfl

theorem nodup_map_fst_insert (key : κ) (value : ν) {entries : Association κ ν}
    (h : (entries.map Prod.fst).Nodup) : ((insert key value entries).map Prod.fst).Nodup := by
  rw [map_fst_insert]
  split
  · exact h
  · next hkey =>
    refine List.nodup_append.mpr ⟨h, List.nodup_singleton key, ?_⟩
    intro name hname other hother
    rw [List.mem_singleton.mp hother]
    exact fun heq ↦ hkey (heq ▸ hname)

theorem mem_insert {key : κ} {value : ν} {entries : Association κ ν} {entry : κ × ν}
    (h : entry ∈ insert key value entries) : entry = (key, value) ∨ entry ∈ entries := by
  induction entries with
  | nil => exact Or.inl (List.mem_singleton.mp h)
  | cons first rest ih =>
    rcases first with ⟨name, old⟩
    by_cases hname : name = key
    · subst hname
      rw [insert, if_pos rfl] at h
      exact (List.mem_cons.mp h).imp id (List.mem_cons_of_mem _)
    · rw [insert, if_neg hname] at h
      rcases List.mem_cons.mp h with rfl | hrest
      · exact Or.inr List.mem_cons_self
      · exact (ih hrest).imp id (List.mem_cons_of_mem _)

theorem erase_sublist (key : κ) (entries : Association κ ν) :
    (erase key entries).Sublist entries := by
  induction entries with
  | nil => exact List.Sublist.refl _
  | cons entry rest ih =>
    rcases entry with ⟨name, value⟩
    by_cases hname : name = key
    · rw [erase, if_pos hname]
      exact List.sublist_cons_self _ rest
    · rw [erase, if_neg hname]
      exact ih.cons_cons _

theorem nodup_map_fst_erase (key : κ) {entries : Association κ ν}
    (h : (entries.map Prod.fst).Nodup) : ((erase key entries).map Prod.fst).Nodup :=
  h.sublist ((erase_sublist key entries).map Prod.fst)

theorem get?_erase (key other : κ) {entries : Association κ ν}
    (hkeys : (entries.map Prod.fst).Nodup) :
    get? other (erase key entries) = if key = other then none else get? other entries := by
  induction entries with
  | nil => simp [erase]
  | cons entry rest ih =>
    rcases entry with ⟨name, value⟩
    rw [List.map_cons, List.nodup_cons] at hkeys
    by_cases hname : name = key
    · subst hname
      rw [erase, if_pos rfl, get?_cons]
      split
      · next hother => exact get?_eq_none_iff.mpr (hother ▸ hkeys.1)
      · rfl
    · by_cases hother : name = other
      · subst hother
        have hkey : key ≠ name := fun heq ↦ hname heq.symm
        simp [erase, hname, hkey]
      · simp [erase, get?_cons, hname, hother, ih hkeys.2]

/-- A new key comes last. -/
theorem insert_of_not_mem {key : κ} {entries : Association κ ν} (value : ν)
    (h : key ∉ entries.map Prod.fst) : insert key value entries = entries ++ [(key, value)] := by
  induction entries with
  | nil => rfl
  | cons entry rest ih =>
    rcases entry with ⟨name, old⟩
    rw [List.map_cons, List.mem_cons, not_or] at h
    rw [insert, if_neg (Ne.symm h.1), ih h.2, List.cons_append]

/-- A key that stands once is found in a selection of the entries if its entry is selected. -/
theorem get?_filter (key : κ) (keep : κ × ν → Bool) {entries : Association κ ν}
    (hkeys : (entries.map Prod.fst).Nodup) :
    get? key (entries.filter keep) = (get? key entries).filter fun value ↦ keep (key, value) := by
  induction entries with
  | nil => rfl
  | cons entry rest ih =>
    rcases entry with ⟨name, value⟩
    rw [List.map_cons, List.nodup_cons] at hkeys
    rw [List.filter_cons]
    by_cases hname : name = key
    · subst hname
      have hrest : get? name rest = none := get?_eq_none_iff.mpr hkeys.1
      split <;> simp_all [Option.filter_some]
    · split <;> simp [get?_cons, hname, ih hkeys.2]

/-! ## Grouping -/

theorem get?_addTo (key other : κ) (value : ν) (groups : Association κ (List ν)) :
    get? other (addTo key value groups) =
      if key = other then some ((get? other groups).getD [] ++ [value]) else get? other groups := by
  unfold addTo
  rw [get?_insert]
  by_cases h : key = other
  · simp [h]
  · simp [h]

/-- Values gathered behind groups that exist already. -/
theorem getD_get?_foldl_addTo (keyOf : ν → κ) (values : List ν) (groups : Association κ (List ν))
    (key : κ) :
    (get? key (values.foldl (fun done value ↦ addTo (keyOf value) value done) groups)).getD [] =
      (get? key groups).getD [] ++ values.filter (fun value ↦ keyOf value = key) := by
  induction values generalizing groups with
  | nil => simp
  | cons value rest ih =>
    rw [List.foldl_cons, ih, get?_addTo]
    by_cases h : keyOf value = key <;> simp [h]

theorem isSome_get?_foldl_addTo (keyOf : ν → κ) (values : List ν)
    (groups : Association κ (List ν)) (key : κ) :
    (get? key (values.foldl (fun done value ↦ addTo (keyOf value) value done) groups)).isSome =
      ((get? key groups).isSome || values.any (fun value ↦ keyOf value = key)) := by
  induction values generalizing groups with
  | nil => simp
  | cons value rest ih =>
    rw [List.foldl_cons, ih, get?_addTo]
    by_cases h : keyOf value = key <;> simp [h]

theorem getD_get?_group (keyOf : ν → κ) (values : List ν) (key : κ) :
    (get? key (group keyOf values)).getD [] =
      values.filter (fun value ↦ keyOf value = key) := by
  have h := getD_get?_foldl_addTo keyOf values [] key
  rwa [get?_nil, Option.getD_none, List.nil_append] at h

/-- A key has no group exactly when no value has it; otherwise its group holds those that do. -/
theorem get?_group (keyOf : ν → κ) (values : List ν) (key : κ) :
    get? key (group keyOf values) =
      if values.filter (fun value ↦ keyOf value = key) = [] then none
      else some (values.filter (fun value ↦ keyOf value = key)) := by
  have hsome := isSome_get?_foldl_addTo keyOf values [] key
  have hgroup := getD_get?_group keyOf values key
  change (get? key (group keyOf values)).isSome = _ at hsome
  cases hget : get? key (group keyOf values) with
  | none =>
    rw [hget] at hgroup
    rw [← hgroup]
    rfl
  | some found =>
    rw [hget] at hsome hgroup
    have hne : values.filter (fun value ↦ keyOf value = key) ≠ [] := by
      intro hnil
      rw [List.filter_eq_nil_iff] at hnil
      simp only [get?_nil, Option.isSome_none, Bool.false_or, Option.isSome_some] at hsome
      obtain ⟨value, hmem, hkey⟩ := List.any_eq_true.mp hsome.symm
      exact hnil value hmem hkey
    rw [if_neg hne, ← hgroup]
    rfl

theorem nodup_map_fst_group (keyOf : ν → κ) (values : List ν) :
    ((group keyOf values).map Prod.fst).Nodup := by
  have hfold (groups : Association κ (List ν)) (h : (groups.map Prod.fst).Nodup) :
      ((values.foldl (fun done value ↦ addTo (keyOf value) value done) groups).map
        Prod.fst).Nodup := by
    induction values generalizing groups with
    | nil => exact h
    | cons value rest ih => exact ih _ (nodup_map_fst_insert _ _ h)
  exact hfold [] List.nodup_nil

theorem length_flatMap_addTo (key : κ) (value : ν) (groups : Association κ (List ν)) :
    ((addTo key value groups).flatMap Prod.snd).length =
      (groups.flatMap Prod.snd).length + 1 := by
  unfold addTo
  induction groups with
  | nil => rfl
  | cons entry rest ih =>
    rcases entry with ⟨name, found⟩
    by_cases hname : name = key
    · simp [insert, hname]
      omega
    · rw [get?_cons_of_ne hname]
      simp only [insert, if_neg hname, List.flatMap_cons, List.length_append, ih]
      omega

/-- Grouping neither loses nor repeats a value. -/
theorem length_flatMap_group (keyOf : ν → κ) (values : List ν) :
    ((group keyOf values).flatMap Prod.snd).length = values.length := by
  have hfold (groups : Association κ (List ν)) :
      ((values.foldl (fun done value ↦ addTo (keyOf value) value done) groups).flatMap
        Prod.snd).length = (groups.flatMap Prod.snd).length + values.length := by
    induction values generalizing groups with
    | nil => rfl
    | cons value rest ih =>
      rw [List.foldl_cons, ih, length_flatMap_addTo, List.length_cons]
      omega
  have h := hfold []
  rwa [List.flatMap_nil, List.length_nil, Nat.zero_add] at h

end ManifestTree.Association
