import ManifestTree.Proofs.Leaves

/-!
# Taking a value out

Taking follows its steps down to a value, removes it there, and removes with it every object that
this empties on the way back. `TakesOut` has one case for each way down, so that what taking keeps
is shown case by case: a value taken out is the one that was read there, and the rest stays of its
kind and without repeated keys.
-/

namespace ManifestTree.Json

/-- Steps lead to a value inside a whole, and something is left without it. -/
inductive TakesOut (taken : Json) : List Step → Json → Json → Prop where
  | member {name : String} {members : Members} : Members.get? members name = some taken →
    TakesOut taken [.key name] (object members) (object (Members.erase members name))
  | emptied {name : String} {members : Members} {rest : List Step} {inner : Json} :
    Members.get? members name = some inner → TakesOut taken rest inner (object []) →
      TakesOut taken (.key name :: rest) (object members) (object (Members.erase members name))
  | within {name : String} {members : Members} {rest : List Step} {inner left : Json} :
    Members.get? members name = some inner → TakesOut taken rest inner left → left ≠ object [] →
      TakesOut taken (.key name :: rest) (object members)
        (object (Members.insert members name left))
  | item {position : Nat} {items : List Json} : items[position]? = some taken →
    TakesOut taken [.index position] (array items) (array (items.eraseIdx position))
  | inside {position : Nat} {items : List Json} {rest : List Step} {inner left : Json} :
    items[position]? = some inner → TakesOut taken rest inner left →
      TakesOut taken (.index position :: rest) (array items) (array (items.set position left))

theorem TakesOut.steps_ne_nil {steps : List Step} {value taken left : Json}
    (h : TakesOut taken steps value left) : steps ≠ [] := by
  cases h <;> exact List.cons_ne_nil _ _

theorem takeSteps_eq_some_iff {steps : List Step} {value taken left : Json} :
    takeSteps steps value = some (taken, left) ↔ TakesOut taken steps value left := by
  constructor
  · intro h
    induction steps generalizing value left with
    | nil => cases value <;> cases h
    | cons step rest ih =>
      cases step with
      | key name =>
        cases value with
        | object members =>
          rw [takeSteps] at h
          cases hget : Members.get? members name with
          | none =>
            rw [hget] at h
            cases h
          | some inner =>
            rw [hget] at h
            dsimp only at h
            split at h
            · next hrest =>
              rw [List.isEmpty_iff.mp hrest]
              cases h
              exact .member hget
            · split at h
              · cases h
              · next htake =>
                cases h
                exact .emptied hget (ih htake)
              · next hnonempty htake =>
                cases h
                exact .within hget (ih htake) fun hempty ↦ hnonempty (hempty ▸ rfl)
        | _ => cases h
      | index position =>
        cases value with
        | array items =>
          rw [takeSteps] at h
          cases hget : items[position]? with
          | none =>
            rw [hget] at h
            cases h
          | some inner =>
            rw [hget] at h
            dsimp only at h
            split at h
            · next hrest =>
              rw [List.isEmpty_iff.mp hrest]
              cases h
              exact .item hget
            · split at h
              · cases h
              · next htake =>
                cases h
                exact .inside hget (ih htake)
        | _ => cases h
  · intro h
    induction h with
    | member hget => simp [takeSteps, hget]
    | emptied hget hrest ih => simp [takeSteps, hget, ih, hrest.steps_ne_nil]
    | within hget hrest _ ih => simp [takeSteps, hget, ih, hrest.steps_ne_nil]
    | item hget => simp [takeSteps, hget]
    | inside hget hrest ih => simp [takeSteps, hget, ih, hrest.steps_ne_nil]

namespace TakesOut

variable {steps : List Step} {value taken left : Json}

/-- What is taken out is what was read there. -/
theorem getSteps? (h : TakesOut taken steps value left) :
    Json.getSteps? steps value = some taken := by
  induction h with
  | member hget => rw [getSteps?_key, hget, Option.bind_some, getSteps?_nil]
  | emptied hget _ ih => rw [getSteps?_key, hget, Option.bind_some, ih]
  | within hget _ _ ih => rw [getSteps?_key, hget, Option.bind_some, ih]
  | item hget => rw [getSteps?_index, hget, Option.bind_some, getSteps?_nil]
  | inside hget _ ih => rw [getSteps?_index, hget, Option.bind_some, ih]

theorem eq_object {members : Members} (h : TakesOut taken steps (object members) left) :
    ∃ fields, left = object fields := by
  cases h with
  | member _ => exact ⟨_, rfl⟩
  | emptied _ _ => exact ⟨_, rfl⟩
  | within _ _ _ => exact ⟨_, rfl⟩

/-- Neither what is taken nor what is left has a repeated key. -/
theorem wellFormed (h : TakesOut taken steps value left) (hvalue : value.WellFormed) :
    taken.WellFormed ∧ left.WellFormed := by
  induction h with
  | member hget => exact ⟨hvalue.member hget, hvalue.erase _⟩
  | emptied hget _ ih => exact ⟨(ih (hvalue.member hget)).1, hvalue.erase _⟩
  | within hget _ _ ih =>
    obtain ⟨htaken, hleft⟩ := ih (hvalue.member hget)
    exact ⟨htaken, hvalue.insert hleft _⟩
  | item hget =>
    refine ⟨hvalue.item hget, itemsWellFormed_iff.mpr fun item hitem ↦ ?_⟩
    exact itemsWellFormed_iff.mp hvalue item (List.mem_of_mem_eraseIdx hitem)
  | inside hget _ ih =>
    obtain ⟨htaken, hleft⟩ := ih (hvalue.item hget)
    refine ⟨htaken, itemsWellFormed_iff.mpr fun item hitem ↦ ?_⟩
    rcases List.mem_or_eq_of_mem_set hitem with hold | rfl
    · exact itemsWellFormed_iff.mp hvalue item hold
    · exact hleft

end TakesOut

end ManifestTree.Json
