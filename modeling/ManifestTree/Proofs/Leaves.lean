import ManifestTree.Proofs.Extension
import Mathlib.Data.List.Perm.Subperm

/-!
# Leaves

A leaf is a value with nothing inside, a scalar or an empty collection. What a well-formed value
holds at the ends of all steps that lead to leaves determines it up to the order of object keys, so
two documents that were built in different orders are compared leaf by leaf. Values with a repeated
key are left out: an entry behind another one of its key has no steps that lead to it.
-/

namespace ManifestTree.Json

/-! ## Well-formed values -/

theorem itemsWellFormed_iff {items : List Json} :
    ItemsWellFormed items ↔ ∀ item ∈ items, item.WellFormed := by
  induction items with
  | nil => simp [ItemsWellFormed]
  | cons item rest ih => simp [ItemsWellFormed, ih]

theorem membersWellFormed_iff {members : Members} :
    MembersWellFormed members ↔ ∀ entry ∈ members, entry.2.WellFormed := by
  induction members with
  | nil => simp [MembersWellFormed]
  | cons entry rest ih => simp [MembersWellFormed, ih]

theorem WellFormed.nodup {members : Members} (h : (object members).WellFormed) :
    (members.map Prod.fst).Nodup := h.1

theorem WellFormed.member {members : Members} (h : (object members).WellFormed) {key : String}
    {value : Json} (hget : members.get? key = some value) : value.WellFormed :=
  membersWellFormed_iff.mp h.2 (key, value) (Association.mem_of_get?_eq_some hget)

theorem WellFormed.members {value : Json} (h : value.WellFormed) :
    (object value.members).WellFormed := by
  cases value with
  | object members => exact h
  | _ => exact ⟨List.nodup_nil, trivial⟩

theorem WellFormed.item {items : List Json} (h : (array items).WellFormed) {position : Nat}
    {value : Json} (hget : items[position]? = some value) : value.WellFormed :=
  itemsWellFormed_iff.mp h value (List.mem_of_getElem? hget)

theorem WellFormed.insert {members : Members} {value : Json} (h : (object members).WellFormed)
    (hvalue : value.WellFormed) (key : String) :
    (object (members.insert key value)).WellFormed := by
  refine ⟨Association.nodup_map_fst_insert key value h.1, membersWellFormed_iff.mpr ?_⟩
  intro entry hentry
  rcases Association.mem_insert hentry with rfl | hold
  · exact hvalue
  · exact membersWellFormed_iff.mp h.2 entry hold

theorem WellFormed.erase {members : Members} (h : (object members).WellFormed) (key : String) :
    (object (members.erase key)).WellFormed := by
  refine ⟨Association.nodup_map_fst_erase key h.1, membersWellFormed_iff.mpr ?_⟩
  intro entry hentry
  exact membersWellFormed_iff.mp h.2 entry ((Association.erase_sublist key members).mem hentry)

theorem WellFormed.append {items more : List Json} (h : (array items).WellFormed)
    (hmore : (array more).WellFormed) : (array (items ++ more)).WellFormed := by
  refine itemsWellFormed_iff.mpr fun item hitem ↦ ?_
  rcases List.mem_append.mp hitem with hitem | hitem
  · exact itemsWellFormed_iff.mp h item hitem
  · exact itemsWellFormed_iff.mp hmore item hitem

/-! ## Reading leaves -/

def isLeaf : Json → Bool
  | array items => items.isEmpty
  | object members => members.isEmpty
  | _ => true

def leaf? (steps : List Step) (value : Json) : Option Json := (getSteps? steps value).filter isLeaf

@[simp]
theorem getSteps?_nil (value : Json) : getSteps? [] value = some value := by
  cases value <;> rfl

@[simp]
theorem getSteps?_key (name : String) (rest : List Step) (members : Members) :
    getSteps? (.key name :: rest) (object members) =
      (members.get? name).bind (getSteps? rest) := by
  rw [getSteps?]
  cases Members.get? members name <;> rfl

@[simp]
theorem getSteps?_index (position : Nat) (rest : List Step) (items : List Json) :
    getSteps? (.index position :: rest) (array items) =
      items[position]?.bind (getSteps? rest) := by
  rw [getSteps?]
  cases items[position]? <;> rfl

theorem getElem?_set_of_getElem? {items : List Json} {position : Nat} {inner : Json}
    (h : items[position]? = some inner) (value : Json) :
    (items.set position value)[position]? = some value := by
  simp [(List.getElem?_eq_some_iff.mp h).1]

/-- In an object with a member inserted, only the way into that member has changed. -/
theorem getSteps?_insert (members : Members) (name : String) (value : Json) (step : Step)
    (rest : List Step) :
    getSteps? (step :: rest) (object (members.insert name value)) =
      if step = .key name then getSteps? rest value
      else getSteps? (step :: rest) (object members) := by
  cases step with
  | index position => rfl
  | key other =>
    rw [getSteps?_key, getSteps?_key, Members.get?, Members.get?, Members.insert]
    by_cases hname : name = other
    · subst hname
      rw [if_pos rfl, Association.get?_insert_self, Option.bind_some]
    · rw [if_neg fun h ↦ hname (Step.key.inj h).symm, Association.get?_insert_of_ne hname]

/-- In an object with a member erased, only the way into that member has gone. -/
theorem getSteps?_erase {members : Members} (h : (members.map Prod.fst).Nodup) (name : String)
    (step : Step) (rest : List Step) :
    getSteps? (step :: rest) (object (members.erase name)) =
      if step = .key name then none else getSteps? (step :: rest) (object members) := by
  cases step with
  | index position => rfl
  | key other =>
    rw [getSteps?_key, getSteps?_key, Members.get?, Members.get?, Members.erase,
      Association.get?_erase _ _ h]
    by_cases hname : name = other
    · subst hname
      rw [if_pos rfl, if_pos rfl, Option.bind_none]
    · rw [if_neg hname, if_neg fun h ↦ hname (Step.key.inj h).symm]

/-- In an array with an item replaced, only the way into that item has changed. -/
theorem getSteps?_set {items : List Json} {position : Nat} {item : Json}
    (h : items[position]? = some item) (value : Json) (step : Step) (rest : List Step) :
    getSteps? (step :: rest) (array (items.set position value)) =
      if step = .index position then getSteps? rest value
      else getSteps? (step :: rest) (array items) := by
  cases step with
  | key name => rfl
  | index other =>
    rw [getSteps?_index, getSteps?_index]
    by_cases hposition : position = other
    · subst hposition
      rw [if_pos rfl, getElem?_set_of_getElem? h, Option.bind_some]
    · rw [if_neg fun h ↦ hposition (Step.index.inj h).symm, List.getElem?_set_ne hposition]

theorem WellFormed.inside {steps : List Step} {value found : Json} (h : value.WellFormed)
    (hget : getSteps? steps value = some found) : found.WellFormed := by
  induction steps generalizing value with
  | nil =>
    rw [getSteps?_nil, Option.some.injEq] at hget
    exact hget ▸ h
  | cons step rest ih =>
    cases step with
    | key name =>
      cases value with
      | object members =>
        rw [getSteps?_key, Option.bind_eq_some_iff] at hget
        obtain ⟨inner, hinner, hfound⟩ := hget
        exact ih (h.member hinner) hfound
      | _ => cases hget
    | index position =>
      cases value with
      | array items =>
        rw [getSteps?_index, Option.bind_eq_some_iff] at hget
        obtain ⟨inner, hinner, hfound⟩ := hget
        exact ih (h.item hinner) hfound
      | _ => cases hget

theorem leaf?_append (front back : List Step) (value : Json) :
    leaf? (front ++ back) value = (getSteps? front value).bind (leaf? back) := by
  rw [leaf?, getSteps?_append]
  cases getSteps? front value <;> rfl

theorem leaf?_key (name : String) (rest : List Step) (members : Members) :
    leaf? (.key name :: rest) (object members) = (members.get? name).bind (leaf? rest) := by
  rw [leaf?, getSteps?_key]
  cases Members.get? members name <;> rfl

theorem leaf?_index (position : Nat) (rest : List Step) (items : List Json) :
    leaf? (.index position :: rest) (array items) = items[position]?.bind (leaf? rest) := by
  rw [leaf?, getSteps?_index]
  cases items[position]? <;> rfl

/-- Steps that lead further do not end at a leaf. -/
theorem leaf?_eq_none_of_getSteps? {front back : List Step} {value found : Json}
    (hget : getSteps? (front ++ back) value = some found) (hback : back ≠ []) :
    leaf? front value = none := by
  rw [getSteps?_append] at hget
  rw [leaf?]
  cases hfront : getSteps? front value with
  | none => rfl
  | some inner =>
    rw [hfront, Option.bind_some] at hget
    cases back with
    | nil => exact absurd rfl hback
    | cons step rest =>
      cases step with
      | key name =>
        cases inner with
        | object members =>
          cases members with
          | nil => cases hget
          | cons _ _ => rfl
        | _ => cases hget
      | index position =>
        cases inner with
        | array items =>
          cases items with
          | nil => cases hget
          | cons _ _ => rfl
        | _ => cases hget

/-- Every value has a leaf, the value itself or one inside its first part. -/
theorem exists_leaf : ∀ value : Json, ∃ steps leaf, leaf? steps value = some leaf
  | array (item :: rest) => by
    obtain ⟨steps, leaf, hleaf⟩ := exists_leaf item
    refine ⟨.index 0 :: steps, leaf, ?_⟩
    rw [leaf?_index]
    exact hleaf
  | object ((name, value) :: rest) => by
    obtain ⟨steps, leaf, hleaf⟩ := exists_leaf value
    refine ⟨.key name :: steps, leaf, ?_⟩
    rw [leaf?_key, Members.get?, Association.get?_cons_self]
    exact hleaf
  | array [] => ⟨[], array [], rfl⟩
  | object [] => ⟨[], object [], rfl⟩
  | null => ⟨[], null, rfl⟩
  | bool value => ⟨[], bool value, rfl⟩
  | number value => ⟨[], number value, rfl⟩
  | string value => ⟨[], string value, rfl⟩

/-- Steps without a leaf at or behind their end lead nowhere. -/
theorem getSteps?_eq_none_iff {steps : List Step} {value : Json} :
    getSteps? steps value = none ↔ ∀ more, leaf? (steps ++ more) value = none := by
  constructor
  · intro h more
    rw [leaf?_append, h]
    rfl
  · intro h
    cases hget : getSteps? steps value with
    | none => rfl
    | some found =>
      obtain ⟨more, leaf, hleaf⟩ := exists_leaf found
      have hnone := h more
      rw [leaf?_append, hget, Option.bind_some, hleaf] at hnone
      cases hnone

/-- A value that is no object has a leaf where no object with members has one. -/
theorem exists_leaf_of_not_isObject {value : Json} (h : value.isObject = false) :
    ∃ steps leaf, leaf? steps value = some leaf ∧
      ∀ members : Members, members ≠ [] → leaf? steps (object members) = none := by
  have hnonempty (members : Members) (hne : members ≠ []) :
      leaf? [] (object members) = none := by
    cases members with
    | nil => exact absurd rfl hne
    | cons _ _ => rfl
  cases value with
  | object members => cases h
  | array items =>
    cases items with
    | nil => exact ⟨[], array [], rfl, hnonempty⟩
    | cons item rest =>
      obtain ⟨steps, leaf, hleaf⟩ := exists_leaf item
      refine ⟨.index 0 :: steps, leaf, ?_, fun _ _ ↦ rfl⟩
      rw [leaf?_index]
      exact hleaf
  | null => exact ⟨[], null, rfl, hnonempty⟩
  | bool value => exact ⟨[], bool value, rfl, hnonempty⟩
  | number value => exact ⟨[], number value, rfl, hnonempty⟩
  | string value => exact ⟨[], string value, rfl, hnonempty⟩

/-! ## Equal up to the order of keys -/

mutual

/-- Equal values, but for the order of the keys in each object. -/
def Alike : Json → Json → Prop
  | .array xs, .array ys => ItemsAlike xs ys
  | .object xs, .object ys => (Members.keys xs).Perm (Members.keys ys) ∧ MembersAlike xs ys
  | x, y => x = y

def ItemsAlike : List Json → List Json → Prop
  | [], [] => True
  | x :: xs, y :: ys => Alike x y ∧ ItemsAlike xs ys
  | _, _ => False

/-- Every member of the first list is found in the second, but for the order of keys. -/
def MembersAlike : List (String × Json) → Members → Prop
  | [], _ => True
  | (key, value) :: rest, other =>
    (∃ found, Members.get? other key = some found ∧ Alike value found) ∧ MembersAlike rest other

end

/-- The two values have the same leaves at the ends of the same steps. -/
def SameLeaves (x y : Json) : Prop := ∀ steps, leaf? steps x = leaf? steps y

/-- Arrays with the same leaves item by item have the same leaves. -/
theorem sameLeaves_array {xs ys : List Json} (h : List.Forall₂ SameLeaves xs ys) :
    (array xs).SameLeaves (array ys) := by
  have hitem (position : Nat) (rest : List Step) :
      xs[position]?.bind (leaf? rest) = ys[position]?.bind (leaf? rest) := by
    induction h generalizing position with
    | nil => rfl
    | cons hhead _ ih =>
      cases position with
      | zero => exact hhead rest
      | succ position => exact ih position
  intro steps
  cases steps with
  | nil => cases h <;> rfl
  | cons step rest =>
    cases step with
    | key name => rfl
    | index position => rw [leaf?_index, leaf?_index, hitem]

theorem eq_of_leaf?_nil {value leaf : Json} (h : leaf? [] value = some leaf) : value = leaf := by
  rw [leaf?, getSteps?_nil, Option.filter_eq_some_iff] at h
  exact Option.some.inj h.1

/-- An array has the leaves of another array only. -/
theorem SameLeaves.eq_array {items : List Json} {value : Json}
    (h : (array items).SameLeaves value) : ∃ more, value = array more := by
  cases items with
  | nil => exact ⟨[], eq_of_leaf?_nil (h []).symm⟩
  | cons item rest =>
    obtain ⟨steps, leaf, hleaf⟩ := exists_leaf item
    have hvalue := h (.index 0 :: steps)
    rw [leaf?_index, List.getElem?_cons_zero, Option.bind_some, hleaf] at hvalue
    cases value with
    | array more => exact ⟨more, rfl⟩
    | _ => cases hvalue

/-- An object has the leaves of another object only. -/
theorem SameLeaves.eq_object {members : Members} {value : Json}
    (h : (object members).SameLeaves value) : ∃ more, value = object more := by
  cases members with
  | nil => exact ⟨[], eq_of_leaf?_nil (h []).symm⟩
  | cons entry rest =>
    rcases entry with ⟨name, first⟩
    obtain ⟨steps, leaf, hleaf⟩ := exists_leaf first
    have hvalue := h (.key name :: steps)
    rw [leaf?_key, Members.get?, Association.get?_cons_self, Option.bind_some, hleaf] at hvalue
    cases value with
    | object more => exact ⟨more, rfl⟩
    | _ => cases hvalue

theorem SameLeaves.get?_eq_none_iff {xs ys : Members} (h : (object xs).SameLeaves (object ys))
    (key : String) : xs.get? key = none ↔ ys.get? key = none := by
  have hkey (members : Members) :
      members.get? key = none ↔ ∀ more, leaf? (.key key :: more) (object members) = none := by
    have hsteps : getSteps? [.key key] (object members) = members.get? key := by
      rw [getSteps?_key]
      cases members.get? key <;> rfl
    rw [← hsteps, getSteps?_eq_none_iff]
    rfl
  rw [hkey xs, hkey ys]
  exact forall_congr' fun more ↦ by rw [h]

theorem SameLeaves.perm_keys {xs ys : Members} (h : (object xs).SameLeaves (object ys))
    (hx : (object xs).WellFormed) (hy : (object ys).WellFormed) : xs.keys.Perm ys.keys := by
  refine (List.perm_ext_iff_of_nodup hx.nodup hy.nodup).mpr fun key ↦ ?_
  exact not_iff_not.mp (by
    rw [← Association.get?_eq_none_iff, ← Association.get?_eq_none_iff]
    exact h.get?_eq_none_iff key)

mutual

theorem alike_of_sameLeaves : ∀ (x : Json) {y : Json}, x.WellFormed → y.WellFormed →
    x.SameLeaves y → x.Alike y
  | .null, _, _, _, h => by
    cases eq_of_leaf?_nil (h []).symm
    rfl
  | .bool _, _, _, _, h => by
    cases eq_of_leaf?_nil (h []).symm
    rfl
  | .number _, _, _, _, h => by
    cases eq_of_leaf?_nil (h []).symm
    rfl
  | .string _, _, _, _, h => by
    cases eq_of_leaf?_nil (h []).symm
    rfl
  | .array xs, y, hx, hy, h => by
    obtain ⟨ys, rfl⟩ := h.eq_array
    refine itemsAlike_of_sameLeaves xs hx hy fun position rest ↦ ?_
    rw [← leaf?_index, ← leaf?_index]
    exact h (.index position :: rest)
  | .object xs, y, hx, hy, h => by
    obtain ⟨ys, rfl⟩ := h.eq_object
    refine ⟨h.perm_keys hx hy, membersAlike_of_sameLeaves xs (membersWellFormed_iff.mp hx.2) hy ?_⟩
    intro key value hmem rest
    rw [← leaf?_key, ← h, leaf?_key, Members.get?,
      Association.get?_eq_some_of_mem hx.nodup hmem, Option.bind_some]

theorem itemsAlike_of_sameLeaves : ∀ (xs : List Json) {ys : List Json}, ItemsWellFormed xs →
    ItemsWellFormed ys →
    (∀ (position : Nat) (rest : List Step),
      xs[position]?.bind (leaf? rest) = ys[position]?.bind (leaf? rest)) →
    ItemsAlike xs ys
  | [], [], _, _, _ => trivial
  | [], y :: ys, _, _, h => by
    obtain ⟨steps, leaf, hleaf⟩ := exists_leaf y
    have hnone := h 0 steps
    simp [hleaf] at hnone
  | x :: xs, [], _, _, h => by
    obtain ⟨steps, leaf, hleaf⟩ := exists_leaf x
    have hnone := h 0 steps
    simp [hleaf] at hnone
  | x :: xs, y :: ys, hx, hy, h =>
    ⟨alike_of_sameLeaves x hx.1 hy.1 (h 0),
      itemsAlike_of_sameLeaves xs hx.2 hy.2 fun position ↦ h (position + 1)⟩

theorem membersAlike_of_sameLeaves : ∀ (xs : List (String × Json)) {ys : Members},
    (∀ entry ∈ xs, entry.2.WellFormed) → (object ys).WellFormed →
    (∀ key value, (key, value) ∈ xs →
      ∀ rest, leaf? rest value = (ys.get? key).bind (leaf? rest)) →
    MembersAlike xs ys
  | [], _, _, _, _ => trivial
  | (key, value) :: rest, ys, hx, hy, h => by
    have hvalue := h key value List.mem_cons_self
    refine ⟨?_, membersAlike_of_sameLeaves rest
      (fun entry hentry ↦ hx entry (List.mem_cons_of_mem _ hentry)) hy
      fun name other hmem ↦ h name other (List.mem_cons_of_mem _ hmem)⟩
    cases hget : ys.get? key with
    | none =>
      obtain ⟨steps, leaf, hleaf⟩ := exists_leaf value
      have hnone := hvalue steps
      rw [hget, hleaf] at hnone
      cases hnone
    | some found =>
      refine ⟨found, rfl, alike_of_sameLeaves value (hx _ List.mem_cons_self) (hy.member hget) ?_⟩
      intro steps
      rw [hvalue steps, hget, Option.bind_some]

end

end ManifestTree.Json
