import ManifestTree.Proofs.Extension
import Mathlib.Data.List.Forall2

/-!
# Documents with parts left out

A value is a part of another one when both come from the same writes, some of which the part lacks:
its objects lack keys and its arrays lack items. The order of keys does not count, since an object
that one of the two got as a whole the other one may have got key by key. A writer that succeeds in
the whole succeeds in the part as well, provided that it goes to the same place in both; keys are
the same on both ways there, while an item may stand further in front in the part. Overlaying is
left out.
-/

namespace ManifestTree.Json

open List (SublistForall₂)

/-! ## The order -/

/-- The first value is the second one with members and items left out. -/
inductive PartOf : Json → Json → Prop where
  | scalar {value : Json} (h : value.IsScalar) : PartOf value value
  /-- Some of the items are there in their order, each with parts left out. -/
  | array {items more : List Json} (h : SublistForall₂ PartOf items more) :
      PartOf (array items) (array more)
  | object {members more : Members}
      (hkeys : ∀ key, more.get? key = none → members.get? key = none)
      (hvalues : ∀ key part whole, members.get? key = some part → more.get? key = some whole →
        PartOf part whole) :
      PartOf (object members) (object more)

theorem sublistForall₂_append_left {R : Json → Json → Prop} {items more : List Json}
    (h : SublistForall₂ R items more) (front : List Json) :
    SublistForall₂ R items (front ++ more) := by
  induction front with
  | nil => exact h
  | cons item rest ih => exact .cons_right ih

theorem sublistForall₂_append {R : Json → Json → Prop} {items more others rest : List Json}
    (h : SublistForall₂ R items more) (hrest : SublistForall₂ R others rest) :
    SublistForall₂ R (items ++ others) (more ++ rest) := by
  induction h with
  | nil => exact sublistForall₂_append_left hrest _
  | cons hitem _ ih => exact .cons hitem ih
  | cons_right _ ih => exact .cons_right ih

mutual

theorem PartOf.refl : ∀ value : Json, value.PartOf value
  | .null => .scalar trivial
  | .bool _ => .scalar trivial
  | .number _ => .scalar trivial
  | .string _ => .scalar trivial
  | .array items => .array (itemsPartOf_refl items)
  | .object members => by
    refine .object (fun _ h ↦ h) fun key part whole hpart hwhole ↦ ?_
    cases hpart.symm.trans hwhole
    exact memberPartOf_refl members hpart

theorem itemsPartOf_refl : ∀ items : List Json, SublistForall₂ PartOf items items
  | [] => .nil
  | item :: rest => .cons (PartOf.refl item) (itemsPartOf_refl rest)

theorem memberPartOf_refl : ∀ (members : List (String × Json)) {key : String} {value : Json},
    Members.get? members key = some value → value.PartOf value
  | [], _, _, h => by cases h
  | (name, first) :: rest, key, value, h => by
    rw [Members.get?, Association.get?_cons] at h
    split at h
    · cases h
      exact PartOf.refl first
    · exact memberPartOf_refl rest h

end

mutual

/-- What is part of a value is part of its extensions. -/
theorem PartOf.extend_of : ∀ (value : Json) {part later : Json}, part.PartOf value →
    value.ExtendedBy later → part.PartOf later
  | .null, _, _, h, hlater => ExtendedBy.eq_of_isScalar hlater trivial ▸ h
  | .bool _, _, _, h, hlater => ExtendedBy.eq_of_isScalar hlater trivial ▸ h
  | .number _, _, _, h, hlater => ExtendedBy.eq_of_isScalar hlater trivial ▸ h
  | .string _, _, _, h, hlater => ExtendedBy.eq_of_isScalar hlater trivial ▸ h
  | .array items, _, _, h, hlater => by
    obtain ⟨more, rfl, hmore⟩ := extendedBy_array_iff.mp hlater
    cases h with
    | scalar hscalar => exact hscalar.elim
    | array hitems => exact .array (itemsPartOf_extend items hitems hmore)
  | .object members, _, _, h, hlater => by
    obtain ⟨more, rfl, hmore⟩ := extendedBy_object_iff.mp hlater
    cases h with
    | scalar hscalar => exact hscalar.elim
    | object hkeys hvalues =>
      refine .object (fun key hnone ↦ hkeys key ?_) fun key part whole hpart hwhole ↦ ?_
      · cases hget : Members.get? members key with
        | none => rfl
        | some middle =>
          obtain ⟨_, hfound, -⟩ := hmore.get? hget
          rw [hnone] at hfound
          cases hfound
      · cases hget : Members.get? members key with
        | none =>
          rw [hkeys key hget] at hpart
          cases hpart
        | some middle =>
          exact memberPartOf_extend members hmore hget hwhole (hvalues key part middle hpart hget)

theorem itemsPartOf_extend : ∀ (items : List Json) {part later : List Json},
    SublistForall₂ PartOf part items → ItemsExtendedBy items later →
    SublistForall₂ PartOf part later
  | [], _, _, h, _ => by
    cases h
    exact .nil
  | _ :: _, _, [], _, hlater => hlater.elim
  | item :: rest, _, _ :: _, h, hlater => by
    cases h with
    | nil => exact .nil
    | cons hitem hrest =>
      exact .cons (PartOf.extend_of item hitem hlater.1) (itemsPartOf_extend rest hrest hlater.2)
    | cons_right hrest => exact .cons_right (itemsPartOf_extend rest hrest hlater.2)

theorem memberPartOf_extend : ∀ (members : List (String × Json)) {later : Members} {key : String}
    {part value whole : Json}, MembersExtendedBy members later →
    Members.get? members key = some value → later.get? key = some whole → part.PartOf value →
    part.PartOf whole
  | [], _, _, _, _, _, _, hget, _, _ => by cases hget
  | _ :: _, [], _, _, _, _, hlater, _, _, _ => hlater.elim
  | (name, first) :: rest, (other, last) :: more, key, part, value, whole, hlater, hget, hwhole,
      hpart => by
    obtain ⟨rfl, hfirst, hrest⟩ := hlater
    rw [Members.get?, Association.get?_cons] at hget hwhole
    split at hget
    · next hname =>
      rw [if_pos hname] at hwhole
      cases hget
      cases hwhole
      exact PartOf.extend_of first hpart hfirst
    · next hname =>
      rw [if_neg hname] at hwhole
      exact memberPartOf_extend rest hrest hget hwhole hpart

end

theorem partOf_empty (members : Members) : (object []).PartOf (object members) :=
  .object (fun _ _ ↦ rfl) fun _ _ _ h _ ↦ by cases h

theorem partOf_insert {members more : Members} {part whole : Json}
    (h : (object members).PartOf (object more)) (hpart : part.PartOf whole) (name : String) :
    (object (members.insert name part)).PartOf (object (more.insert name whole)) := by
  cases h with
  | scalar hscalar => exact hscalar.elim
  | object hkeys hvalues =>
    refine .object (fun key hnone ↦ ?_) fun key x y hx hy ↦ ?_
    · rw [Members.get?, Members.insert, Association.get?_insert] at hnone ⊢
      split at hnone
      · cases hnone
      · next hname =>
        rw [if_neg hname]
        exact hkeys key hnone
    · rw [Members.get?, Members.insert, Association.get?_insert] at hx hy
      split at hx
      · next hname =>
        rw [if_pos hname] at hy
        cases hx
        cases hy
        exact hpart
      · next hname =>
        rw [if_neg hname] at hy
        exact hvalues key x y hx hy

/-! ## Places -/

/-- What a place holds is part of what another place holds; a vacant place is part of every one. -/
def Place.PartOf (part whole : Place) : Prop :=
  ∀ value, part = some value → ∃ found, whole = some found ∧ value.PartOf found

/-- What stands at a key of the object that a place holds. -/
def Place.member (name : String) : Place → Place
  | some (object members) => Members.get? members name
  | _ => none

namespace Place

theorem PartOf.of_some {part whole : Json} (h : part.PartOf whole) :
    Place.PartOf (some part) (some whole) := by
  intro value hvalue
  cases hvalue
  exact ⟨whole, rfl, h⟩

theorem PartOf.eq_none {part : Place} (h : Place.PartOf part none) : part = none := by
  cases part with
  | none => rfl
  | some value =>
    obtain ⟨_, hnone, -⟩ := h value rfl
    cases hnone

/-- Below an object stands an object or nothing. -/
theorem PartOf.eq_object {part : Place} {more : Members}
    (h : Place.PartOf part (some (object more))) :
    part = none ∨ ∃ members : Members, part = some (object members) ∧
      (object members).PartOf (object more) := by
  cases part with
  | none => exact .inl rfl
  | some value =>
    obtain ⟨_, heq, hvalue⟩ := h value rfl
    cases heq
    cases hvalue with
    | scalar hscalar => exact hscalar.elim
    | object hkeys hvalues => exact .inr ⟨_, rfl, .object hkeys hvalues⟩

/-- Below an array stands an array or nothing. -/
theorem PartOf.eq_array {part : Place} {more : List Json}
    (h : Place.PartOf part (some (array more))) :
    part = none ∨ ∃ items, part = some (array items) ∧ SublistForall₂ Json.PartOf items more := by
  cases part with
  | none => exact .inl rfl
  | some value =>
    obtain ⟨_, heq, hvalue⟩ := h value rfl
    cases heq
    cases hvalue with
    | scalar hscalar => exact hscalar.elim
    | array hitems => exact .inr ⟨_, rfl, hitems⟩

theorem PartOf.member {part whole : Place} (h : Place.PartOf part whole) (name : String) :
    Place.PartOf (part.member name) (whole.member name) := by
  intro value hvalue
  cases part with
  | none => cases hvalue
  | some outer =>
    obtain ⟨found, rfl, houter⟩ := h outer rfl
    cases houter with
    | scalar hscalar =>
      cases outer with
      | object members => exact hscalar.elim
      | _ => cases hvalue
    | array hitems => cases hvalue
    | @object members more hkeys hvalues =>
      cases hget : more.get? name with
      | none =>
        rw [Place.member, hkeys name hget] at hvalue
        cases hvalue
      | some inner => exact ⟨inner, hget, hvalues name value inner hvalue hget⟩

/-- What a place holds is still there later, possibly extended. -/
def Grows (place later : Place) : Prop :=
  ∀ old, place = some old → ∃ new, later = some new ∧ old.ExtendedBy new

theorem Grows.of_some {old new : Json} (h : old.ExtendedBy new) : Grows (some old) (some new) := by
  intro value hvalue
  cases hvalue
  exact ⟨new, rfl, h⟩

theorem Grows.member {place later : Place} (h : place.Grows later) (name : String) :
    Grows (place.member name) (later.member name) := by
  intro value hvalue
  cases place with
  | none => cases hvalue
  | some old =>
    obtain ⟨new, rfl, hnew⟩ := h old rfl
    cases old with
    | object members =>
      obtain ⟨more, rfl, hmore⟩ := extendedBy_object_iff.mp hnew
      exact hmore.get? hvalue
    | _ => cases hvalue

theorem PartOf.extend {part whole later : Place} (h : Place.PartOf part whole)
    (hlater : whole.Grows later) : Place.PartOf part later := by
  intro value hvalue
  obtain ⟨old, hold, hpart⟩ := h value hvalue
  obtain ⟨new, hnew, hextends⟩ := hlater old hold
  exact ⟨new, hnew, PartOf.extend_of old hpart hextends⟩

end Place

/-- An item of an array is found again in each extension, between extensions of its neighbours. -/
theorem ItemsExtendedBy.split {before behind more : List Json} {item : Json}
    (h : ItemsExtendedBy (before ++ item :: behind) more) :
    ∃ front found back, more = front ++ found :: back ∧ front.length = before.length ∧
      ItemsExtendedBy before front ∧ item.ExtendedBy found ∧ ItemsExtendedBy behind back := by
  induction before generalizing more with
  | nil =>
    cases more with
    | nil => exact h.elim
    | cons found back => exact ⟨[], found, back, rfl, rfl, trivial, h.1, h.2⟩
  | cons first rest ih =>
    cases more with
    | nil => exact h.elim
    | cons other more =>
      obtain ⟨front, found, back, rfl, hlength, hfront, hitem, hback⟩ := ih h.2
      exact ⟨other :: front, found, back, rfl, congrArg Nat.succ hlength, ⟨h.1, hfront⟩, hitem,
        hback⟩

/-! ## The same place in both -/

/-- Steps in the part and steps in the whole that lead to the same place: along the same keys, and
to an item that stands between parts of what it stands between in the whole. -/
inductive Aligned : List Step → List Step → Place → Place → Prop where
  | here {part whole : Place} (h : Place.PartOf part whole) : Aligned [] [] part whole
  | key {name : String} {steps others : List Step} {part whole : Place}
      (h : Place.PartOf part whole)
      (hinner : Aligned steps others (part.member name) (whole.member name)) :
      Aligned (.key name :: steps) (.key name :: others) part whole
  | item {steps others : List Step} {front back before behind : List Json} {part whole : Json}
      (hfront : SublistForall₂ PartOf front before) (hback : SublistForall₂ PartOf back behind)
      (hinner : Aligned steps others (some part) (some whole)) :
      Aligned (.index front.length :: steps) (.index before.length :: others)
        (some (array (front ++ part :: back))) (some (array (before ++ whole :: behind)))

namespace Aligned

variable {steps others : List Step} {part whole : Place}

theorem partOf (h : Aligned steps others part whole) : Place.PartOf part whole := by
  induction h with
  | here h => exact h
  | key h _ _ => exact h
  | item hfront hback _ ih =>
    obtain ⟨_, heq, hitem⟩ := ih _ rfl
    cases heq
    exact Place.PartOf.of_some (.array (sublistForall₂_append hfront (.cons hitem hback)))

theorem length_eq (h : Aligned steps others part whole) : steps.length = others.length := by
  induction h with
  | here _ => rfl
  | key _ _ ih => exact congrArg Nat.succ ih
  | item _ _ _ ih => exact congrArg Nat.succ ih

/-- Places on the way are the same ones, too. -/
theorem of_append {more last : List Step} (h : Aligned (steps ++ more) (others ++ last) part whole)
    (hlength : steps.length = others.length) : Aligned steps others part whole := by
  induction steps generalizing others part whole with
  | nil =>
    cases List.eq_nil_of_length_eq_zero hlength.symm
    exact .here h.partOf
  | cons step rest ih =>
    cases others with
    | nil => cases hlength
    | cons other others =>
      have hrest : rest.length = others.length := Nat.succ.inj hlength
      cases h with
      | key h hinner => exact .key h (ih hinner hrest)
      | item hfront hback hinner => exact .item hfront hback (ih hinner hrest)

/-- From the same place on, the same keys lead to the same place. -/
theorem append_keys (h : Aligned steps others part whole) {more : List Step}
    (hkeys : FieldPath.keysOnly ⟨more⟩) : Aligned (steps ++ more) (others ++ more) part whole := by
  induction h with
  | key h _ ih => exact .key h ih
  | item hfront hback _ ih => exact .item hfront hback ih
  | @here part whole h =>
    induction more generalizing part whole with
    | nil => exact .here h
    | cons step rest ih =>
      cases step with
      | index position => simp [FieldPath.keysOnly] at hkeys
      | key name =>
        refine .key h (ih (by simpa [FieldPath.keysOnly] using hkeys) (h.member name))

/-- What is added to the whole does not matter. -/
theorem extend (h : Aligned steps others part whole) {later : Place} (hlater : whole.Grows later) :
    Aligned steps others part later := by
  induction h generalizing later with
  | here h => exact .here (h.extend hlater)
  | key h _ ih => exact .key (h.extend hlater) (ih (hlater.member _))
  | item hfront hback _ ih =>
    obtain ⟨_, rfl, hnew⟩ := hlater _ rfl
    obtain ⟨more, rfl, hmore⟩ := extendedBy_array_iff.mp hnew
    obtain ⟨ahead, item, rest, rfl, hlength, hahead, hitem, hrest⟩ := hmore.split
    rw [← hlength]
    exact .item (itemsPartOf_extend _ hfront hahead) (itemsPartOf_extend _ hback hrest)
      (ih (Place.Grows.of_some hitem))

end Aligned

/-! ## Writers -/

/-- Where an action succeeds in the whole, the other one succeeds in each part of it, and what the
two answer leads on to the same place. -/
def Action.Parallel {α : Type} (action other : Action α) (tail : α → List Step) : Prop :=
  ∀ part whole answer after, Place.PartOf part whole → other whole = (.ok answer, after) →
    ∃ result value left, after = some result ∧ action part = (.ok value, some left) ∧
      Aligned (tail value) (tail answer) (some left) (some result)

theorem fill_parallel {part whole : Json} (h : part.PartOf whole) (path other : FieldPath) :
    Action.Parallel (fill path part) (fill other whole) fun _ ↦ [] := by
  intro place vacant answer after hplace hfill
  obtain ⟨rfl, rfl⟩ := fill_eq_ok hfill
  cases hplace.eq_none
  exact ⟨whole, (), part, rfl, rfl, .here (Place.PartOf.of_some h)⟩

theorem addItem_parallel {part whole : Json} (h : part.PartOf whole) (path other : FieldPath) :
    Action.Parallel (addItem path part) (addItem other whole) fun position ↦ [.index position] := by
  intro place full answer after hplace hadd
  obtain ⟨more, hmore, rfl, rfl⟩ := addItem_eq_ok hadd
  have hitems : ∃ items, addItem path part place =
      (.ok items.length, some (array (items ++ [part]))) ∧ SublistForall₂ PartOf items more := by
    rcases hmore with ⟨rfl, rfl⟩ | rfl
    · cases hplace.eq_none
      exact ⟨[], rfl, .nil⟩
    · rcases hplace.eq_array with rfl | ⟨items, rfl, hitems⟩
      · exact ⟨[], rfl, .nil⟩
      · exact ⟨items, rfl, hitems⟩
  obtain ⟨items, hitem, hitems⟩ := hitems
  exact ⟨_, _, _, rfl, hitem, .item hitems .nil (.here (Place.PartOf.of_some h))⟩

/-- The place holds an object, a vacant one counting as the empty object. -/
def Place.Holds (place : Place) (members : Members) : Prop :=
  place = none ∧ members = [] ∨ place = some (object members)

theorem Place.PartOf.exists_holds {part whole : Place} {more : Members}
    (h : Place.PartOf part whole) (hwhole : whole.Holds more) :
    ∃ members, part.Holds members ∧ (object members).PartOf (object more) := by
  rcases hwhole with ⟨rfl, rfl⟩ | rfl
  · exact ⟨[], .inl ⟨h.eq_none, rfl⟩, PartOf.refl _⟩
  · rcases h.eq_object with rfl | ⟨members, rfl, hmembers⟩
    · exact ⟨[], .inl ⟨rfl, rfl⟩, partOf_empty more⟩
    · exact ⟨members, .inr rfl, hmembers⟩

section Walk

variable {α : Type} {path : FieldPath} {action : Action α} {taken rest : List Step} {answer : α}

theorem walk_key {place : Place} {members : Members} (h : place.Holds members) (name : String) :
    walk path action taken (.key name :: rest) place =
      let (outcome, inner) := walk path action (taken ++ [.key name]) rest (place.member name)
      (outcome, some (object (members.insert name (inner.getD null)))) := by
  rcases h with ⟨rfl, rfl⟩ | rfl <;> rfl

/-- A walk that succeeds behind a key has found an object, or nothing. -/
theorem walk_key_eq_ok {name : String} {place after : Place}
    (h : walk path action taken (.key name :: rest) place = (.ok answer, after)) :
    ∃ members, place.Holds members := by
  cases place with
  | none => exact ⟨[], .inl ⟨rfl, rfl⟩⟩
  | some value =>
    cases value with
    | object members => exact ⟨members, .inr rfl⟩
    | _ => cases h

theorem walk_item (front back : List Json) (item : Json) :
    walk path action taken (.index front.length :: rest) (some (array (front ++ item :: back))) =
      let (outcome, inner) :=
        walk path action (taken ++ [.index front.length]) rest (some item)
      (outcome, some (array (front ++ inner.getD null :: back))) := by
  simp [walk]

end Walk

/-- At the same place, the walk in the part succeeds when the one in the whole does. -/
theorem walk_aligned {α : Type} (path other : FieldPath) {action twin : Action α}
    {tail : α → List Step} (hactions : Action.Parallel action twin tail)
    {steps others : List Step} {part whole after : Place} {answer : α}
    (h : Aligned steps others part whole) (taken before : List Step)
    (hwalk : walk other twin before others whole = (.ok answer, after)) :
    ∃ result value left, after = some result ∧
      walk path action taken steps part = (.ok value, some left) ∧
      Aligned (steps ++ tail value) (others ++ tail answer) (some left) (some result) := by
  induction h generalizing taken before after with
  | here h =>
    rw [walk] at hwalk
    simpa [walk] using hactions _ _ _ _ h hwalk
  | @key name steps others part whole h _ ih =>
    obtain ⟨more, hmore⟩ := walk_key_eq_ok hwalk
    obtain ⟨members, hmembers, hobject⟩ := h.exists_holds hmore
    rw [walk_key hmore] at hwalk
    rcases hinner : walk other twin (before ++ [.key name]) others (whole.member name)
      with ⟨outcome, inner⟩
    rw [hinner] at hwalk
    cases hwalk
    obtain ⟨result, value, left, rfl, hleft, haligned⟩ :=
      ih (taken ++ [.key name]) (before ++ [.key name]) hinner
    obtain ⟨_, heq, hpart⟩ := haligned.partOf left rfl
    cases heq
    rw [walk_key hmembers, hleft]
    have hmember (found : Json) (entries : Members) :
        Place.member name (some (object (entries.insert name found))) = some found :=
      Association.get?_insert_self name found entries
    refine ⟨_, value, _, rfl, rfl, .key (.of_some (partOf_insert hobject hpart name)) ?_⟩
    rw [Option.getD_some, Option.getD_some, hmember, hmember]
    exact haligned
  | @item steps others front back ahead behind part whole hfront hback _ ih =>
    rw [walk_item] at hwalk
    rcases hinner : walk other twin (before ++ [.index ahead.length]) others (some whole)
      with ⟨outcome, inner⟩
    rw [hinner] at hwalk
    cases hwalk
    obtain ⟨result, value, left, rfl, hleft, haligned⟩ :=
      ih (taken ++ [.index front.length]) (before ++ [.index ahead.length]) hinner
    rw [walk_item, hleft]
    exact ⟨_, value, _, rfl, rfl, .item hfront hback haligned⟩

/-- A writer that succeeds in the whole succeeds at the same place in the part. -/
theorem write_aligned {α : Type} {path other : FieldPath} {action twin : Action α}
    {tail : α → List Step} (hactions : Action.Parallel action twin tail)
    {part whole after : Json} {answer : α} (hpart : part ≠ null) (hwhole : whole ≠ null)
    (h : Aligned path.steps other.steps (some part) (some whole))
    (hwrite : whole.write other twin = (.ok answer, after)) :
    ∃ value left, part.write path action = (.ok value, left) ∧
      Aligned (path.steps ++ tail value) (other.steps ++ tail answer) (some left) (some after) := by
  rcases hwalk : walk other twin [] other.steps (some whole) with ⟨outcome, place⟩
  rw [write, Place.ofDocument_eq_some hwhole, hwalk] at hwrite
  cases hwrite
  obtain ⟨result, value, left, rfl, hleft, haligned⟩ :=
    walk_aligned path other hactions h [] [] hwalk
  refine ⟨value, left, ?_, haligned⟩
  rw [write, Place.ofDocument_eq_some hpart, hleft]
  rfl

end ManifestTree.Json
