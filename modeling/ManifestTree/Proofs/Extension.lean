import ManifestTree.Document.Access
import ManifestTree.Proofs.Association

/-!
# Documents that only grow

A value extends another one when it differs by additions alone: scalars and null stay, an object
keeps its keys in front and in their order, an array keeps its items in front, and what was there
has itself only grown. Filling a vacant place and adding an item to an array are the two actions of
this kind, and the walk to a place turns each into an extension of the whole document in which the
new value is found where the walk ended. Overlaying is not of this kind and is left out.
-/

namespace ManifestTree.Json

/-! ## The order -/

mutual

/-- The second value has everything that the first one has, in the same places. -/
def ExtendedBy : Json → Json → Prop
  | .array old, .array new => ItemsExtendedBy old new
  | .object old, .object new => MembersExtendedBy old new
  | old, new => old = new

/-- The first items are there in front, each possibly extended. -/
def ItemsExtendedBy : List Json → List Json → Prop
  | [], _ => True
  | old :: rest, new :: more => ExtendedBy old new ∧ ItemsExtendedBy rest more
  | _ :: _, [] => False

/-- The first members are there in front under the same keys, each possibly extended. -/
def MembersExtendedBy : List (String × Json) → List (String × Json) → Prop
  | [], _ => True
  | (key, old) :: rest, (name, new) :: more =>
    key = name ∧ ExtendedBy old new ∧ MembersExtendedBy rest more
  | _ :: _, [] => False

end

/-- The value has no places inside: it is no array and no object. -/
def IsScalar : Json → Prop
  | .array _ => False
  | .object _ => False
  | _ => True

mutual

theorem ExtendedBy.refl : ∀ value : Json, value.ExtendedBy value
  | .null => rfl
  | .bool _ => rfl
  | .number _ => rfl
  | .string _ => rfl
  | .array items => ItemsExtendedBy.refl items
  | .object members => MembersExtendedBy.refl members

theorem ItemsExtendedBy.refl : ∀ items : List Json, ItemsExtendedBy items items
  | [] => trivial
  | item :: rest => ⟨ExtendedBy.refl item, ItemsExtendedBy.refl rest⟩

theorem MembersExtendedBy.refl : ∀ members : List (String × Json),
    MembersExtendedBy members members
  | [] => trivial
  | (_, value) :: rest => ⟨rfl, ExtendedBy.refl value, MembersExtendedBy.refl rest⟩

end

/-- A scalar is extended by itself alone. -/
theorem ExtendedBy.eq_of_isScalar {old new : Json} (h : old.ExtendedBy new)
    (hscalar : old.IsScalar) : new = old := by
  cases old with
  | array items => exact hscalar.elim
  | object members => exact hscalar.elim
  | null => exact h.symm
  | bool value => exact h.symm
  | number value => exact h.symm
  | string value => exact h.symm

theorem ExtendedBy.ne_null {old new : Json} (h : old.ExtendedBy new) (hold : old ≠ null) :
    new ≠ null := by
  rintro rfl
  cases old with
  | null => exact hold rfl
  | _ => exact nomatch h

theorem extendedBy_array_iff {items : List Json} {new : Json} :
    (array items).ExtendedBy new ↔ ∃ more, new = array more ∧ ItemsExtendedBy items more := by
  cases new <;> simp [ExtendedBy]

theorem extendedBy_object_iff {members : List (String × Json)} {new : Json} :
    (object members).ExtendedBy new ↔
      ∃ more, new = object more ∧ MembersExtendedBy members more := by
  cases new <;> simp [ExtendedBy]

mutual

theorem ExtendedBy.trans_of : ∀ (x : Json) {y z : Json},
    x.ExtendedBy y → y.ExtendedBy z → x.ExtendedBy z
  | .null, _, _, hxy, hyz => by
    cases ExtendedBy.eq_of_isScalar hxy trivial
    exact hyz
  | .bool _, _, _, hxy, hyz => by
    cases ExtendedBy.eq_of_isScalar hxy trivial
    exact hyz
  | .number _, _, _, hxy, hyz => by
    cases ExtendedBy.eq_of_isScalar hxy trivial
    exact hyz
  | .string _, _, _, hxy, hyz => by
    cases ExtendedBy.eq_of_isScalar hxy trivial
    exact hyz
  | .array items, _, _, hxy, hyz => by
    obtain ⟨middle, rfl, hmiddle⟩ := extendedBy_array_iff.mp hxy
    obtain ⟨last, rfl, hlast⟩ := extendedBy_array_iff.mp hyz
    exact ItemsExtendedBy.trans_of items hmiddle hlast
  | .object members, _, _, hxy, hyz => by
    obtain ⟨middle, rfl, hmiddle⟩ := extendedBy_object_iff.mp hxy
    obtain ⟨last, rfl, hlast⟩ := extendedBy_object_iff.mp hyz
    exact MembersExtendedBy.trans_of members hmiddle hlast

theorem ItemsExtendedBy.trans_of : ∀ (xs : List Json) {ys zs : List Json},
    ItemsExtendedBy xs ys → ItemsExtendedBy ys zs → ItemsExtendedBy xs zs
  | [], _, _, _, _ => trivial
  | _ :: _, [], _, hxy, _ => hxy.elim
  | _ :: _, _ :: _, [], _, hyz => hyz.elim
  | x :: rest, _ :: _, _ :: _, hxy, hyz =>
    ⟨ExtendedBy.trans_of x hxy.1 hyz.1, ItemsExtendedBy.trans_of rest hxy.2 hyz.2⟩

theorem MembersExtendedBy.trans_of : ∀ (xs : List (String × Json))
    {ys zs : List (String × Json)},
    MembersExtendedBy xs ys → MembersExtendedBy ys zs → MembersExtendedBy xs zs
  | [], _, _, _, _ => trivial
  | _ :: _, [], _, hxy, _ => hxy.elim
  | _ :: _, _ :: _, [], _, hyz => hyz.elim
  | (_, x) :: rest, _ :: _, _ :: _, hxy, hyz =>
    ⟨hxy.1.trans hyz.1, ExtendedBy.trans_of x hxy.2.1 hyz.2.1,
      MembersExtendedBy.trans_of rest hxy.2.2 hyz.2.2⟩

end

theorem ExtendedBy.trans {x y z : Json} (hxy : x.ExtendedBy y) (hyz : y.ExtendedBy z) :
    x.ExtendedBy z := ExtendedBy.trans_of x hxy hyz

/-! ## Members and items -/

theorem MembersExtendedBy.get? {old new : Members} (h : MembersExtendedBy old new) {key : String}
    {value : Json} (hget : old.get? key = some value) :
    ∃ found, new.get? key = some found ∧ value.ExtendedBy found := by
  induction old generalizing new with
  | nil => cases hget
  | cons entry rest ih =>
    rcases entry with ⟨name, first⟩
    cases new with
    | nil => exact h.elim
    | cons other more =>
      rcases other with ⟨_, second⟩
      obtain ⟨rfl, hfirst, hrest⟩ := h
      by_cases hname : name = key
      · subst hname
        cases (Association.get?_cons_self name first rest).symm.trans hget
        exact ⟨second, Association.get?_cons_self name second more, hfirst⟩
      · rw [Members.get?, Association.get?_cons_of_ne hname] at hget
        rw [Members.get?, Association.get?_cons_of_ne hname]
        exact ih hrest hget

/-- Inserting keeps the other members, and the key's own value when that is only extended. -/
theorem membersExtendedBy_insert {members : Members} {key : String} {value : Json}
    (h : ∀ old, members.get? key = some old → old.ExtendedBy value) :
    MembersExtendedBy members (members.insert key value) := by
  induction members with
  | nil => trivial
  | cons entry rest ih =>
    rcases entry with ⟨name, first⟩
    by_cases hname : name = key
    · subst hname
      have hvalue := h first (Association.get?_cons_self name first rest)
      simpa [Members.insert, Association.insert, MembersExtendedBy, hvalue] using
        MembersExtendedBy.refl rest
    · have hrest : MembersExtendedBy rest (Association.insert key value rest) := by
        refine ih fun old hold ↦ h old ?_
        rw [Members.get?, Association.get?_cons_of_ne hname]
        exact hold
      simpa [Members.insert, Association.insert, hname, MembersExtendedBy, hrest] using
        ExtendedBy.refl first

theorem ItemsExtendedBy.getElem? {old new : List Json} (h : ItemsExtendedBy old new)
    {position : Nat} {value : Json} (hget : old[position]? = some value) :
    ∃ found, new[position]? = some found ∧ value.ExtendedBy found := by
  induction old generalizing new position with
  | nil => simp at hget
  | cons first rest ih =>
    cases new with
    | nil => exact h.elim
    | cons second more =>
      obtain ⟨hfirst, hrest⟩ := h
      cases position with
      | zero =>
        cases hget
        exact ⟨second, rfl, hfirst⟩
      | succ position => exact ih hrest hget

theorem itemsExtendedBy_append (items more : List Json) :
    ItemsExtendedBy items (items ++ more) := by
  induction items with
  | nil => trivial
  | cons item rest ih => exact ⟨ExtendedBy.refl item, ih⟩

theorem itemsExtendedBy_set {items : List Json} {position : Nat} {old value : Json}
    (hget : items[position]? = some old) (h : old.ExtendedBy value) :
    ItemsExtendedBy items (items.set position value) := by
  induction items generalizing position with
  | nil => trivial
  | cons item rest ih =>
    cases position with
    | zero =>
      cases hget
      exact ⟨h, ItemsExtendedBy.refl rest⟩
    | succ position => exact ⟨ExtendedBy.refl item, ih hget⟩

/-! ## Reading in an extension -/

theorem getSteps?_append (front back : List Step) (value : Json) :
    getSteps? (front ++ back) value = (getSteps? front value).bind (getSteps? back) := by
  induction front generalizing value with
  | nil => rfl
  | cons step rest ih =>
    cases step with
    | key name =>
      cases value with
      | object members =>
        cases hget : Members.get? members name <;> simp [getSteps?, hget, ih]
      | _ => rfl
    | index position =>
      cases value with
      | array items => cases hget : items[position]? <;> simp [getSteps?, hget, ih]
      | _ => rfl

/-- What is read somewhere is read there afterwards too, possibly extended. -/
theorem ExtendedBy.getSteps? {old new value : Json} {steps : List Step} (h : old.ExtendedBy new)
    (hget : Json.getSteps? steps old = some value) :
    ∃ found, Json.getSteps? steps new = some found ∧ value.ExtendedBy found := by
  induction steps generalizing old new with
  | nil =>
    cases hget
    exact ⟨new, rfl, h⟩
  | cons step rest ih =>
    cases step with
    | key name =>
      cases old with
      | object members =>
        obtain ⟨more, rfl, hmore⟩ := extendedBy_object_iff.mp h
        rw [Json.getSteps?] at hget
        cases hmember : Members.get? members name with
        | none => simp [hmember] at hget
        | some inner =>
          obtain ⟨found, hfound, hinner⟩ := hmore.get? hmember
          rw [Json.getSteps?, hfound]
          rw [hmember] at hget
          exact ih hinner hget
      | _ => cases hget
    | index position =>
      cases old with
      | array items =>
        obtain ⟨more, rfl, hmore⟩ := extendedBy_array_iff.mp h
        rw [Json.getSteps?] at hget
        cases hitem : items[position]? with
        | none => simp [hitem] at hget
        | some inner =>
          obtain ⟨found, hfound, hinner⟩ := hmore.getElem? hitem
          rw [Json.getSteps?, hfound]
          rw [hitem] at hget
          exact ih hinner hget
      | _ => cases hget

theorem ExtendedBy.get? {old new value : Json} {path : FieldPath} (h : old.ExtendedBy new)
    (hget : old.get? path = some value) :
    ∃ found, new.get? path = some found ∧ value.ExtendedBy found := h.getSteps? hget

theorem get?_join (document : Json) (base path : FieldPath) :
    document.get? (base.join path) = (document.get? base).bind fun value ↦ value.get? path :=
  getSteps?_append base.steps path.steps document

/-! ## Actions that only add -/

/-- The value keeps what the place holds; a vacant place holds nothing. -/
def Place.ExtendedBy (place : Place) (value : Json) : Prop :=
  ∀ old, place = some old → old.ExtendedBy value

theorem Place.extendedBy_of_none (value : Json) : Place.ExtendedBy none value :=
  fun _ h ↦ nomatch h

/-- Where the action succeeds, its place holds a value that extends the one before. -/
def Action.OnlyAdds {α : Type} (action : Action α) : Prop :=
  ∀ place answer after, action place = (.ok answer, after) →
    ∃ value, after = some value ∧ Place.ExtendedBy place value

/-- Filling succeeds at a vacant place alone, which then holds the value. -/
theorem fill_eq_ok {path : FieldPath} {value : Json} {place after : Place} {answer : Unit}
    (h : fill path value place = (.ok answer, after)) : place = none ∧ after = some value := by
  cases place with
  | none =>
    cases h
    exact ⟨rfl, rfl⟩
  | some old => cases old <;> cases h

/-- Adding an item puts it behind the items that the place holds, at the answered index. -/
theorem addItem_eq_ok {path : FieldPath} {value : Json} {place after : Place} {answer : Nat}
    (h : addItem path value place = (.ok answer, after)) :
    ∃ items, (place = none ∧ items = [] ∨ place = some (array items)) ∧
      answer = items.length ∧ after = some (array (items ++ [value])) := by
  cases place with
  | none =>
    cases h
    exact ⟨[], .inl ⟨rfl, rfl⟩, rfl, rfl⟩
  | some old =>
    cases old with
    | array items =>
      cases h
      exact ⟨items, .inr rfl, rfl, rfl⟩
    | _ => cases h

theorem fill_onlyAdds (path : FieldPath) (value : Json) : (fill path value).OnlyAdds := by
  intro place answer after h
  obtain ⟨rfl, rfl⟩ := fill_eq_ok h
  exact ⟨value, rfl, Place.extendedBy_of_none value⟩

theorem addItem_onlyAdds (path : FieldPath) (value : Json) : (addItem path value).OnlyAdds := by
  intro place answer after h
  obtain ⟨items, hplace, -, rfl⟩ := addItem_eq_ok h
  refine ⟨_, rfl, fun old hold ↦ ?_⟩
  rcases hplace with ⟨rfl, -⟩ | rfl
  · cases hold
  · cases hold
    exact itemsExtendedBy_append items [value]

/-! ## The walk -/

/-- The action has worked where the steps lead, and around it the value has only grown. -/
structure Reached {α : Type} (action : Action α) (steps : List Step) (place : Place) (answer : α)
    (document : Json) : Prop where
  grows : Place.ExtendedBy place document
  /-- The action took what the steps read, and they read what it left. -/
  acted : ∃ value, action (place.bind (getSteps? steps)) = (.ok answer, some value) ∧
    getSteps? steps document = some value

namespace Reached

variable {α : Type} {action : Action α} {rest : List Step} {answer : α} {inner : Json}

theorem vacant (h : Reached action rest none answer inner) (name : String) :
    Reached action (.key name :: rest) none answer (object [(name, inner)]) where
  grows := Place.extendedBy_of_none _
  acted := by
    obtain ⟨value, haction, hfound⟩ := h.acted
    refine ⟨value, haction, ?_⟩
    rw [Json.getSteps?, Members.get?, Association.get?_cons_self]
    exact hfound

theorem member {name : String} {members : Members}
    (h : Reached action rest (members.get? name) answer inner) :
    Reached action (.key name :: rest) (some (object members)) answer
      (object (members.insert name inner)) where
  grows := by
    intro old hold
    cases hold
    exact membersExtendedBy_insert h.grows
  acted := by
    obtain ⟨value, haction, hfound⟩ := h.acted
    have hread : (some (object members)).bind (Json.getSteps? (.key name :: rest)) =
        (members.get? name).bind (Json.getSteps? rest) := by
      rw [Option.bind_some, Json.getSteps?]
      cases Members.get? members name <;> rfl
    refine ⟨value, ?_, ?_⟩
    · rw [hread]
      exact haction
    · rw [Json.getSteps?, Members.get?, Members.insert, Association.get?_insert_self]
      exact hfound

theorem item {position : Nat} {items : List Json} {old : Json} (hitem : items[position]? = some old)
    (h : Reached action rest (some old) answer inner) :
    Reached action (.index position :: rest) (some (array items)) answer
      (array (items.set position inner)) where
  grows := by
    intro whole hwhole
    cases hwhole
    exact itemsExtendedBy_set hitem (h.grows old rfl)
  acted := by
    obtain ⟨value, haction, hfound⟩ := h.acted
    have hinside : position < items.length := (List.getElem?_eq_some_iff.mp hitem).1
    have hset : (items.set position inner)[position]? = some inner := by simp [hinside]
    refine ⟨value, ?_, ?_⟩
    · rw [Option.bind_some, Json.getSteps?, hitem]
      exact haction
    · rw [Json.getSteps?, hset]
      exact hfound

end Reached

/-- The walk turns an action that only adds into an extension of the whole value. -/
theorem walk_reached {α : Type} {path : FieldPath} {action : Action α} (hadds : action.OnlyAdds)
    {taken steps : List Step} {place after : Place} {answer : α}
    (h : walk path action taken steps place = (.ok answer, after)) :
    ∃ document, after = some document ∧ Reached action steps place answer document := by
  induction steps generalizing taken place after with
  | nil =>
    rw [walk] at h
    obtain ⟨value, rfl, hvalue⟩ := hadds place answer after h
    have hread : place.bind (getSteps? []) = place := by cases place <;> rfl
    exact ⟨value, rfl, hvalue, value, hread.symm ▸ h, rfl⟩
  | cons step rest ih =>
    cases step with
    | key name =>
      cases place with
      | none =>
        rw [walk] at h
        rcases hwalk : walk path action (taken ++ [.key name]) rest none with ⟨outcome, below⟩
        rw [hwalk] at h
        cases h
        obtain ⟨document, rfl, hreached⟩ := ih hwalk
        exact ⟨_, rfl, hreached.vacant name⟩
      | some old =>
        cases old with
        | object members =>
          rw [walk] at h
          rcases hwalk : walk path action (taken ++ [.key name]) rest (Members.get? members name)
            with ⟨outcome, below⟩
          rw [hwalk] at h
          cases h
          obtain ⟨document, rfl, hreached⟩ := ih hwalk
          exact ⟨_, rfl, hreached.member⟩
        | _ => cases h
    | index position =>
      cases place with
      | none => cases h
      | some old =>
        cases old with
        | array items =>
          rw [walk] at h
          cases hitem : items[position]? with
          | none =>
            rw [hitem] at h
            cases h
          | some item =>
            rcases hwalk : walk path action (taken ++ [.index position]) rest (some item)
              with ⟨outcome, below⟩
            simp only [hitem, hwalk] at h
            cases h
            obtain ⟨document, rfl, hreached⟩ := ih hwalk
            exact ⟨_, rfl, hreached.item hitem⟩
        | _ => cases h

/-- The null document is the vacant one; every other document is what its place holds. -/
theorem Place.ofDocument_eq_some {document : Json} (h : document ≠ null) :
    Place.ofDocument document = some document := by
  cases document with
  | null => exact absurd rfl h
  | _ => rfl

theorem write_extendedBy {α : Type} {document after : Json} {path : FieldPath} {action : Action α}
    {answer : α} (hadds : action.OnlyAdds) (hdocument : document ≠ null)
    (h : document.write path action = (.ok answer, after)) :
    document.ExtendedBy after ∧
      ∃ value, action (document.get? path) = (.ok answer, some value) ∧
        after.get? path = some value := by
  rcases hwalk : walk path action [] path.steps (Place.ofDocument document)
    with ⟨outcome, below⟩
  simp only [write, hwalk] at h
  cases h
  obtain ⟨_, rfl, hreached⟩ := walk_reached hadds hwalk
  rw [Place.ofDocument_eq_some hdocument] at hreached
  exact ⟨hreached.grows document rfl, hreached.acted⟩

/-- Setting extends the document: the path led nowhere before and leads to the value after. -/
theorem set_extendedBy {document after value : Json} {path : FieldPath} {answer : Unit}
    (hdocument : document ≠ null) (h : document.set path value = (.ok answer, after)) :
    document.ExtendedBy after ∧ document.get? path = none ∧ after.get? path = some value := by
  obtain ⟨hextends, found, hfill, hfound⟩ :=
    write_extendedBy (fill_onlyAdds path value) hdocument h
  obtain ⟨hvacant, heq⟩ := fill_eq_ok hfill
  cases heq
  exact ⟨hextends, hvacant, hfound⟩

/-- Appending extends the document: the answered index led nowhere before and leads to the value
after. -/
theorem append_extendedBy {document after value : Json} {path : FieldPath} {answer : Nat}
    (hdocument : document ≠ null) (h : document.append path value = (.ok answer, after)) :
    document.ExtendedBy after ∧ document.get? (path.index answer) = none ∧
      after.get? (path.index answer) = some value := by
  obtain ⟨hextends, found, hadd, hfound⟩ :=
    write_extendedBy (addItem_onlyAdds path value) hdocument h
  obtain ⟨items, hplace, rfl, heq⟩ := addItem_eq_ok hadd
  cases heq
  have hitem (document : Json) : document.get? (path.index items.length) =
      (document.get? path).bind (Json.getSteps? [.index items.length]) :=
    getSteps?_append path.steps [.index items.length] document
  refine ⟨hextends, ?_, ?_⟩
  · rw [hitem]
    rcases hplace with ⟨hplace, -⟩ | hplace
    · rw [hplace]
      rfl
    · rw [hplace]
      simp [Json.getSteps?]
  · rw [hitem, hfound]
    simp [Json.getSteps?]

end ManifestTree.Json
