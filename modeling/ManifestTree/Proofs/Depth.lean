import ManifestTree.Decompose
import ManifestTree.Proofs.Association

/-!
# Decomposing is given enough depth

Decomposing counts down a depth at every element below another one. The objects that a relation
takes out are less high than the value they come from, and what is left is no higher, so the height
of a document is enough: every greater depth gives the same element. Nothing is said about a depth
below the height, where decomposing stops early.
-/

namespace ManifestTree

namespace Json

theorem heightOfItems_le_iff {items : List Json} {bound : Nat} :
    heightOfItems items ≤ bound ↔ ∀ item ∈ items, item.height ≤ bound := by
  induction items with
  | nil => exact iff_of_true (Nat.zero_le bound) (List.forall_mem_nil _)
  | cons item rest ih =>
    have hmax : heightOfItems (item :: rest) = max item.height (heightOfItems rest) := rfl
    rw [hmax, Nat.max_le, ih, List.forall_mem_cons]

theorem heightOfMembers_le_iff {members : Members} {bound : Nat} :
    heightOfMembers members ≤ bound ↔ ∀ entry ∈ members, entry.2.height ≤ bound := by
  induction members with
  | nil => exact iff_of_true (Nat.zero_le bound) (List.forall_mem_nil _)
  | cons entry rest ih =>
    have hmax : heightOfMembers (entry :: rest) = max entry.2.height (heightOfMembers rest) := rfl
    rw [hmax, Nat.max_le, ih, List.forall_mem_cons]

theorem height_item_le {items : List Json} {item : Json} (h : item ∈ items) :
    item.height ≤ heightOfItems items :=
  heightOfItems_le_iff.mp (Nat.le_refl _) item h

theorem height_entry_le {members : Members} {entry : String × Json} (h : entry ∈ members) :
    entry.2.height ≤ heightOfMembers members :=
  heightOfMembers_le_iff.mp (Nat.le_refl _) entry h

theorem height_member_le {members : Members} {name : String} {value : Json}
    (h : members.get? name = some value) : value.height ≤ heightOfMembers members :=
  height_entry_le (Association.mem_of_get?_eq_some h)

theorem heightOfMembers_erase_le (members : Members) (name : String) :
    heightOfMembers (members.erase name) ≤ heightOfMembers members := by
  apply heightOfMembers_le_iff.mpr
  intro entry hentry
  exact height_entry_le ((Association.erase_sublist name members).mem hentry)

theorem heightOfMembers_insert_le {members : Members} {value : Json} (name : String)
    (h : value.height ≤ heightOfMembers members) :
    heightOfMembers (members.insert name value) ≤ heightOfMembers members := by
  apply heightOfMembers_le_iff.mpr
  intro entry hentry
  rcases Association.mem_insert hentry with rfl | hold
  · exact h
  · exact height_entry_le hold

theorem heightOfItems_eraseIdx_le (items : List Json) (position : Nat) :
    heightOfItems (items.eraseIdx position) ≤ heightOfItems items := by
  apply heightOfItems_le_iff.mpr
  intro item hitem
  exact height_item_le (List.mem_of_mem_eraseIdx hitem)

theorem heightOfItems_set_le {items : List Json} {value : Json} (position : Nat)
    (h : value.height ≤ heightOfItems items) :
    heightOfItems (items.set position value) ≤ heightOfItems items := by
  apply heightOfItems_le_iff.mpr
  intro item hitem
  rcases List.mem_or_eq_of_mem_set hitem with hold | rfl
  · exact height_item_le hold
  · exact h

/-- What is taken out is less high than the whole, and what is left is no higher. -/
theorem height_takeSteps {steps : List Step} {value taken left : Json}
    (h : takeSteps steps value = some (taken, left)) :
    taken.height < value.height ∧ left.height ≤ value.height := by
  induction steps generalizing value taken left with
  | nil => cases value <;> cases h
  | cons step rest ih =>
    cases step with
    | key name =>
      cases value with
      | object members =>
        rw [takeSteps] at h
        cases hget : Members.get? members name with
        | none =>
          rw [hget] at h
          cases h
        | some inner =>
          have hinner := height_member_le hget
          have herase := heightOfMembers_erase_le members name
          rw [hget] at h
          dsimp only at h
          split at h
          · cases h
            simp only [height]
            omega
          · split at h
            · cases h
            · next htake =>
              have hbelow := ih htake
              cases h
              simp only [height]
              omega
            · next htake =>
              have hbelow := ih htake
              have hinsert := heightOfMembers_insert_le name (Nat.le_trans hbelow.2 hinner)
              cases h
              simp only [height]
              omega
      | _ => cases h
    | index position =>
      cases value with
      | array items =>
        rw [takeSteps] at h
        cases hget : items[position]? with
        | none =>
          rw [hget] at h
          cases h
        | some inner =>
          have hinner := height_item_le (List.mem_of_getElem? hget)
          have herase := heightOfItems_eraseIdx_le items position
          rw [hget] at h
          dsimp only at h
          split at h
          · cases h
            simp only [height]
            omega
          · split at h
            · cases h
            · next htake =>
              have hbelow := ih htake
              have hset := heightOfItems_set_le position (Nat.le_trans hbelow.2 hinner)
              cases h
              simp only [height]
              omega
      | _ => cases h

end Json

namespace Decompose

open Json

theorem height_objectsOf {value : Json} {members : Members} (h : members ∈ objectsOf value) :
    (object members).height ≤ value.height := by
  cases value with
  | object found =>
    cases List.mem_singleton.mp h
    exact Nat.le_refl _
  | array items =>
    obtain ⟨item, hitem, hobject⟩ := List.mem_filterMap.mp h
    cases item with
    | object found =>
      cases hobject
      have hle := height_item_le hitem
      rw [height]
      omega
    | _ => cases hobject
  | _ => cases h

theorem height_visit {relation : Relation} {value left : Json} {objects : List Members}
    (h : visit relation value = .taken objects left) :
    left.height ≤ value.height ∧ ∀ members ∈ objects, (object members).height < value.height := by
  unfold visit at h
  split at h
  · cases h
  · split at h
    · cases h
    · split at h
      · cases h
      · split at h
        · cases h
        · next htake =>
          cases h
          have hheight := height_takeSteps htake
          refine ⟨hheight.2, fun members hmem ↦ ?_⟩
          calc (object members).height
              ≤ Json.height _ := height_objectsOf hmem
            _ < value.height := hheight.1

theorem elements_congr {nested other : Nested} {type : TypeName} {objects : List Members}
    (h : ∀ members ∈ objects, nested type members = other type members) (tag : Option String) :
    elements nested type tag objects = elements other type tag objects := by
  induction objects with
  | nil => rfl
  | cons members rest ih =>
    rw [elements, elements, h members List.mem_cons_self,
      ih fun more hmem ↦ h more (List.mem_cons_of_mem _ hmem)]

/-- The visits ask about objects that are less high than the value only. -/
theorem visitAll_congr (relations : Relations) {nested other : Nested} {bound : Nat}
    (h : ∀ type members, (object members).height < bound →
      nested type members = other type members)
    (visiting : List Relation) {value : Json} (hvalue : value.height ≤ bound) :
    visitAll relations nested value visiting = visitAll relations other value visiting := by
  induction visiting generalizing value with
  | nil => rfl
  | cons relation rest ih =>
    rw [visitAll, visitAll]
    cases hvisit : visit relation value with
    | nothing => exact ih hvalue
    | kept warning =>
      dsimp only
      rw [ih hvalue]
    | taken objects left =>
      obtain ⟨hleft, hobjects⟩ := height_visit hvisit
      have helements := elements_congr (fun members hmem ↦
        h relation.child members (Nat.lt_of_lt_of_le (hobjects members hmem) hvalue))
        (relations.selector relation)
      dsimp only
      rw [helements, ih (Nat.le_trans hleft hvalue)]

/-- Depths that reach the height of an object give the same element. -/
theorem element_eq_of_height_le (schema : Schema) (marker : String) {depth other : Nat}
    {type : TypeName} {members : Members} (hdepth : (object members).height ≤ depth)
    (hother : (object members).height ≤ other) :
    element schema marker depth type members = element schema marker other type members := by
  induction depth generalizing other type members with
  | zero => simp [height] at hdepth
  | succ depth ih =>
    cases other with
    | zero => simp [height] at hother
    | succ other =>
      have hnested : ∀ type inner, (object inner).height < (object members).height →
          element schema marker depth type inner = element schema marker other type inner := by
        intro type inner hinner
        apply ih
        · omega
        · omega
      have hvisits := visitAll_congr schema.relations hnested (schema.relations.under type)
        (Nat.le_refl (object members).height)
      rw [element, element, hvisits]

end Decompose
end ManifestTree
