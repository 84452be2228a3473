import ManifestTree.Proofs.WriterOutcomes

/-!
# Items in an array of a document

A writer, or a replacement inside the document, leaves everything that is read apart from its path,
also where that is nothing. An item that is appended comes behind those that the place holds, and
stays there when it is replaced. Hence a series of appends at one place, with anything written
apart from it in between, adds its items in order. Paths may contain indices.
-/

namespace ManifestTree.Json

/-! ## Writing apart from a place -/

/-- Nothing is read inside a vacant place, whether or not it shows as null. -/
theorem getSteps?_getD_null {steps : List Step} (h : steps ≠ []) (place : Place) :
    getSteps? steps (place.getD null) = place.bind (getSteps? steps) := by
  cases place with
  | some value => rfl
  | none =>
    cases steps with
    | nil => exact absurd rfl h
    | cons step rest => cases step <;> rfl

/-- Whatever the action, a walk leaves what is read apart from its steps, also where that is
nothing. -/
theorem bind_walk_of_apart {α : Type} (path : FieldPath) (action : Action α) {steps : List Step} :
    ∀ {other : List Step} (taken : List Step) (place : Place), Apart steps other →
      (walk path action taken steps place).2.bind (getSteps? other) =
        place.bind (getSteps? other) := by
  induction steps with
  | nil => exact fun _ _ hapart ↦ absurd List.nil_prefix hapart.1
  | cons step rest ih =>
    intro other taken place hapart
    obtain ⟨first, more, rfl⟩ := List.exists_cons_of_ne_nil hapart.ne_nil
    have hinner (inner : Place) (hfirst : first = step) :
        getSteps? more ((walk path action (taken ++ [step]) rest inner).2.getD null) =
          inner.bind (getSteps? more) := by
      subst hfirst
      rw [getSteps?_getD_null hapart.of_cons.ne_nil]
      exact ih _ inner hapart.of_cons
    cases step with
    | key name =>
      cases place with
      | none =>
        refine (getSteps?_insert [] name _ first more).trans ?_
        split
        · next hfirst => exact hinner none hfirst
        · cases first <;> rfl
      | some document =>
        cases document with
        | object members =>
          refine (getSteps?_insert members name _ first more).trans ?_
          split
          · next hfirst =>
            rw [hinner _ hfirst, hfirst, Option.bind_some, getSteps?_key]
          · rfl
        | _ => rfl
    | index position =>
      cases place with
      | none => rfl
      | some document =>
        cases document with
        | array items =>
          rw [walk]
          cases hitem : items[position]? with
          | none => rfl
          | some item =>
            refine (getSteps?_set hitem _ first more).trans ?_
            split
            · next hfirst =>
              rw [hinner _ hfirst, hfirst, Option.bind_some, Option.bind_some, getSteps?_index,
                hitem, Option.bind_some]
            · rfl
        | _ => rfl

section Frame

variable {document inner : Json} {path : FieldPath}

/-- A writer leaves what is read apart from its path. -/
theorem get?_write_of_apart {α : Type} {target : FieldPath} (action : Action α)
    (hdocument : document ≠ null) (h : Apart target.steps path.steps) :
    (document.write target action).2.get? path = document.get? path := by
  have hwalk := bind_walk_of_apart target action [] (some document) h
  rw [write, Place.ofDocument_eq_some hdocument, Json.get?]
  rw [← getSteps?_getD_null h.ne_nil] at hwalk
  exact hwalk

/-- Replacing is the walk whose action leaves the new value. -/
theorem Leads.replaceSteps_eq_walk {front : List Step} (h : Leads inner front document)
    (value : Json) :
    replaceSteps value front document =
      (walk .root (fun _ ↦ (.ok (), some value)) [] front (some document)).2.getD null := by
  have hwalk := h.walk_append .root (fun _ ↦ (.ok (), some value)) [] []
  rw [List.append_nil] at hwalk
  exact (congrArg Prod.snd hwalk).symm

/-- Replacing a value leaves what is read apart from it. -/
theorem Leads.get?_replace_of_apart {base : FieldPath} (h : Leads inner base.steps document)
    (value : Json) (hapart : Apart base.steps path.steps) :
    (document.replace base value).get? path = document.get? path := by
  rw [Json.get?, replace, h.replaceSteps_eq_walk, getSteps?_getD_null hapart.ne_nil]
  exact bind_walk_of_apart .root _ [] (some document) hapart

/-- Replacing behind a value replaces the value. -/
theorem Leads.replaceSteps_append {front : List Step} (h : Leads inner front document)
    (value : Json) (back : List Step) :
    replaceSteps value (front ++ back) document =
      replaceSteps (replaceSteps value back inner) front document := by
  induction h with
  | here => rfl
  | member hinner _ ih =>
    rw [List.cons_append, replaceSteps_key hinner, replaceSteps_key hinner, ih]
  | item hinner _ ih =>
    rw [List.cons_append, replaceSteps_index hinner, replaceSteps_index hinner, ih]

/-- Replacing an item replaces it in the array. -/
theorem get?_replace_index {target : FieldPath} {items : List Json}
    (h : document.get? target = some (array items)) {position : Nat}
    (hitem : items[position]? = some inner) (value : Json) :
    (document.replace (target.index position) value).get? target =
      some (array (items.set position value)) := by
  have hlead : Leads (array items) target.steps document := leads_of_getSteps? h
  rw [replace, FieldPath.index, hlead.replaceSteps_append, replaceSteps_index hitem, replaceSteps]
  exact hlead.getSteps?_replaceSteps _

end Frame

/-! ## The items at a place -/

/-- The items that a place holds; a vacant place holds none. -/
def HoldsItems (place : Place) (items : List Json) : Prop :=
  place = none ∧ items = [] ∨ place = some (array items)

theorem HoldsItems.unique {place : Place} {items others : List Json} (h : HoldsItems place items)
    (hothers : HoldsItems place others) : items = others := by
  rcases h with ⟨rfl, rfl⟩ | rfl
  · rcases hothers with ⟨-, rfl⟩ | hplace
    · rfl
    · cases hplace
  · rcases hothers with ⟨hplace, -⟩ | hplace
    · cases hplace
    · cases hplace
      rfl

/-- A place gets some items behind those that it holds; without any it stays as it is. -/
inductive Gains (before : Place) : List Json → Place → Prop where
  | nothing : Gains before [] before
  | more {old items : List Json} : HoldsItems before old → items ≠ [] →
    Gains before items (some (array (old ++ items)))

theorem Gains.append {before middle after : Place} {front back : List Json}
    (hfront : Gains before front middle) (hback : Gains middle back after) :
    Gains before (front ++ back) after := by
  cases hfront with
  | nothing => exact hback
  | @more old _ hold hne =>
    cases hback with
    | nothing =>
      rw [List.append_nil]
      exact .more hold hne
    | more hmiddle _ =>
      rw [hmiddle.unique (.inr rfl), List.append_assoc]
      exact .more hold (by simp [hne])

theorem Gains.exists_items {before after : Place} {items : List Json} (h : Gains before items after)
    (hitems : items ≠ []) :
    ∃ old, HoldsItems before old ∧ after = some (array (old ++ items)) := by
  cases h with
  | nothing => exact absurd rfl hitems
  | more hold _ => exact ⟨_, hold, rfl⟩

/-- An item that is appended, whatever is then put in its place, comes behind the items there; what
is read apart from them stays. -/
theorem gains_of_append {document left start : Json} {target : FieldPath} {position : Nat}
    (hdocument : document ≠ null) (h : document.append target start = (.ok position, left))
    (value : Json) (path : FieldPath) :
    (target = path → Gains (document.get? path) [value]
        ((left.replace (target.index position) value).get? path)) ∧
      (Apart target.steps path.steps →
        (left.replace (target.index position) value).get? path = document.get? path) := by
  obtain ⟨items, hplace, rfl, hleft⟩ := items_of_append h
  have hitem : (items ++ [start])[items.length]? = some start := List.getElem?_concat_length
  constructor
  · rintro rfl
    rw [Place.ofDocument_eq_some hdocument] at hplace
    rw [get?_replace_index hleft hitem, List.set_append_right _ _ (Nat.le_refl _), Nat.sub_self]
    exact .more hplace (List.cons_ne_nil value [])
  · intro hapart
    have hread : left.get? path = document.get? path := by
      have hwrite := get?_write_of_apart (addItem target start) hdocument hapart
      rwa [← Json.append, h] at hwrite
    rw [← hread]
    exact (leads_of_getSteps? (get?_of_append h)).get?_replace_of_apart value
      (hapart.append_left [.index items.length])

end ManifestTree.Json
