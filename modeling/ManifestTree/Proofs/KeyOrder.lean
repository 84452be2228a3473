import ManifestTree.Proofs.Overlaying
import ManifestTree.Proofs.PartialDocuments

/-!
# Values that differ in the order of keys alone

Two values match when neither has a repeated key and both are equal up to the order of the keys in
each object. What is read in matching values matches, and what is inserted, erased, overlaid or
written in both alike leaves values that match, with the same outcome. So the order of keys shows
nowhere but in the order of keys. Values with a repeated key are left out: which of its entries is
found depends on their order.
-/

/-! ## Related options -/

namespace Option.Rel

variable {α β γ δ : Type} {R : α → β → Prop} {S : γ → δ → Prop} {first : Option α}
  {second : Option β}

theorem eq_none_iff (h : Option.Rel R first second) :
    first = Option.none ↔ second = Option.none := by
  cases h <;> simp

theorem isNone_eq (h : Option.Rel R first second) : first.isNone = second.isNone := by
  cases h <;> rfl

theorem exists_right (h : Option.Rel R first second) {value : α}
    (hfirst : first = Option.some value) : ∃ found, second = Option.some found ∧ R value found := by
  subst hfirst
  cases h with
  | some hvalue => exact ⟨_, rfl, hvalue⟩

theorem exists_left (h : Option.Rel R first second) {found : β}
    (hsecond : second = Option.some found) :
    ∃ value, first = Option.some value ∧ R value found := by
  subst hsecond
  cases h with
  | some hvalue => exact ⟨_, rfl, hvalue⟩

theorem bind {next : α → Option γ} {following : β → Option δ} (h : Option.Rel R first second)
    (hnext : ∀ value found, R value found → Option.Rel S (next value) (following found)) :
    Option.Rel S (first.bind next) (second.bind following) := by
  cases h with
  | none => exact .none
  | some hvalue => exact hnext _ _ hvalue

theorem getD (h : Option.Rel R first second) {value : α} {found : β} (hvalue : R value found) :
    R (first.getD value) (second.getD found) := by
  cases h with
  | none => exact hvalue
  | some h => exact h

/-- Tests that do not tell related values apart keep both or neither. -/
theorem filter {keep : α → Bool} {other : β → Bool} (h : Option.Rel R first second)
    (hkeep : ∀ value found, R value found → keep value = other found) :
    Option.Rel R (first.filter keep) (second.filter other) := by
  cases h with
  | none => exact .none
  | some hvalue =>
    rw [Option.filter_some, Option.filter_some, hkeep _ _ hvalue]
    split
    · exact .some hvalue
    · exact .none

/-- Related values, or else related values. -/
theorem or {more : Option α} {others : Option β} (h : Option.Rel R first second)
    (hmore : Option.Rel R more others) : Option.Rel R (first.or more) (second.or others) := by
  cases h with
  | none => exact hmore
  | some hvalue => exact .some hvalue

end Option.Rel

namespace ManifestTree.Json

open List (Forall₂)

/-! ## Matching values -/

/-- Two values without repeated keys that are equal up to the order of keys. -/
structure Matches (x y : Json) : Prop where
  left : x.WellFormed
  right : y.WellFormed
  alike : x.Alike y

/-- Two places that are vacant or hold matching values. -/
abbrev Place.Matches (place other : Place) : Prop := Option.Rel Json.Matches place other

theorem itemsAlike_iff {xs ys : List Json} : ItemsAlike xs ys ↔ Forall₂ Alike xs ys := by
  induction xs generalizing ys with
  | nil =>
    cases ys with
    | nil => exact iff_of_true trivial .nil
    | cons y ys => exact iff_of_false id (fun h ↦ nomatch h)
  | cons x rest ih =>
    cases ys with
    | nil => exact iff_of_false id (fun h ↦ nomatch h)
    | cons y ys =>
      rw [List.forall₂_cons, ← ih]
      rfl

theorem membersAlike_iff {xs ys : Members} :
    MembersAlike xs ys ↔
      ∀ entry ∈ xs, ∃ found, ys.get? entry.1 = some found ∧ entry.2.Alike found := by
  induction xs with
  | nil => exact iff_of_true trivial (List.forall_mem_nil _)
  | cons entry rest ih =>
    rw [List.forall_mem_cons, ← ih]
    rfl

theorem matches_array_iff {xs ys : List Json} :
    (array xs).Matches (array ys) ↔ Forall₂ Matches xs ys := by
  constructor
  · rintro ⟨hx, hy, halike⟩
    have hitems : Forall₂ Alike xs ys := itemsAlike_iff.mp halike
    induction hitems with
    | nil => exact .nil
    | cons hitem hrest ih =>
      exact .cons ⟨hx.1, hy.1, hitem⟩ (ih hx.2 hy.2 (itemsAlike_iff.mpr hrest))
  · intro h
    induction h with
    | nil => exact ⟨trivial, trivial, trivial⟩
    | cons hitem _ ih =>
      exact ⟨⟨hitem.left, ih.left⟩, ⟨hitem.right, ih.right⟩, hitem.alike, ih.alike⟩

/-- Objects match when their keys are distinct and look up matching values. -/
theorem matches_object_iff {xs ys : Members} :
    (object xs).Matches (object ys) ↔
      (xs.map Prod.fst).Nodup ∧ (ys.map Prod.fst).Nodup ∧
        ∀ key, Place.Matches (xs.get? key) (ys.get? key) := by
  constructor
  · rintro ⟨hx, hy, hkeys, hmembers⟩
    refine ⟨hx.nodup, hy.nodup, fun key ↦ ?_⟩
    cases hfirst : xs.get? key with
    | none =>
      have hmem : key ∉ ys.map Prod.fst := fun hmem ↦
        Association.get?_eq_none_iff.mp hfirst (hkeys.mem_iff.mpr hmem)
      rw [Members.get?, Association.get?_eq_none_iff.mpr hmem]
      exact .none
    | some value =>
      obtain ⟨found, hfound, halike⟩ :=
        membersAlike_iff.mp hmembers _ (Association.mem_of_get?_eq_some hfirst)
      rw [hfound]
      exact .some ⟨hx.member hfirst, hy.member hfound, halike⟩
  · rintro ⟨hx, hy, hget⟩
    have hmem (key : String) : key ∈ xs.map Prod.fst ↔ key ∈ ys.map Prod.fst := by
      rw [← not_iff_not, ← Association.get?_eq_none_iff, ← Association.get?_eq_none_iff]
      exact (hget key).eq_none_iff
    have hfound : ∀ entry ∈ xs, ∃ found, ys.get? entry.1 = some found ∧ entry.2.Matches found :=
      fun entry hentry ↦ (hget entry.1).exists_right (Association.get?_eq_some_of_mem hx hentry)
    refine ⟨⟨hx, membersWellFormed_iff.mpr fun entry hentry ↦ ?_⟩,
      ⟨hy, membersWellFormed_iff.mpr fun entry hentry ↦ ?_⟩,
      (List.perm_ext_iff_of_nodup hx hy).mpr hmem, membersAlike_iff.mpr fun entry hentry ↦ ?_⟩
    · obtain ⟨_, -, hvalue⟩ := hfound entry hentry
      exact hvalue.left
    · obtain ⟨_, -, hvalue⟩ :=
        (hget entry.1).exists_left (Association.get?_eq_some_of_mem hy hentry)
      exact hvalue.right
    · obtain ⟨found, hread, hvalue⟩ := hfound entry hentry
      exact ⟨found, hread, hvalue.alike⟩

namespace Matches

variable {x y z : Json}

/-- Matching values are of one form: two arrays, two objects, or twice the same scalar. -/
theorem cases (h : x.Matches y) :
    (∃ xs ys, x = array xs ∧ y = array ys ∧ Forall₂ Matches xs ys) ∨
      (∃ xs ys, x = object xs ∧ y = object ys ∧ (object xs).Matches (object ys)) ∨
        (x = y ∧ x.IsScalar) := by
  cases x with
  | array xs =>
    cases y with
    | array ys => exact .inl ⟨xs, ys, rfl, rfl, matches_array_iff.mp h⟩
    | _ => exact Json.noConfusion h.alike
  | object xs =>
    cases y with
    | object ys => exact .inr (.inl ⟨xs, ys, rfl, rfl, h⟩)
    | _ => exact Json.noConfusion h.alike
  | _ => exact .inr (.inr ⟨h.alike, trivial⟩)

theorem eq_object {xs : Members} (h : (object xs).Matches y) :
    ∃ ys, y = object ys ∧ (object xs).Matches (object ys) := by
  rcases h.cases with ⟨_, _, heq, -⟩ | ⟨_, ys, heq, rfl, hmembers⟩ | ⟨-, hscalar⟩
  · cases heq
  · cases heq
    exact ⟨ys, rfl, hmembers⟩
  · exact hscalar.elim

theorem eq_array {xs : List Json} (h : (array xs).Matches y) :
    ∃ ys, y = array ys ∧ Forall₂ Matches xs ys := by
  rcases h.cases with ⟨_, ys, heq, rfl, hitems⟩ | ⟨_, _, heq, -⟩ | ⟨-, hscalar⟩
  · cases heq
    exact ⟨ys, rfl, hitems⟩
  · cases heq
  · exact hscalar.elim

theorem isLeaf_eq (h : x.Matches y) : x.isLeaf = y.isLeaf := by
  rcases h.cases with ⟨xs, ys, rfl, rfl, hitems⟩ | ⟨xs, ys, rfl, rfl, hmembers⟩ | ⟨rfl, -⟩
  · cases hitems <;> rfl
  · have hkeys : xs.length = ys.length := by
      simpa [Members.keys] using hmembers.alike.1.length_eq
    cases xs <;> cases ys <;> first | rfl | cases hkeys
  · rfl

/-- A leaf matches itself alone. -/
theorem eq_of_isLeaf (h : x.Matches y) (hleaf : x.isLeaf) : x = y := by
  have hother : y.isLeaf := h.isLeaf_eq ▸ hleaf
  rcases h.cases with ⟨xs, ys, rfl, rfl, -⟩ | ⟨xs, ys, rfl, rfl, -⟩ | ⟨rfl, -⟩
  · rw [List.isEmpty_iff.mp hleaf, List.isEmpty_iff.mp hother]
  · rw [List.isEmpty_iff.mp hleaf, List.isEmpty_iff.mp hother]
  · rfl

end Matches

/-- Items that match one by one match at every position. -/
theorem matches_getElem? {xs ys : List Json} (h : Forall₂ Matches xs ys) (position : Nat) :
    Place.Matches xs[position]? ys[position]? := by
  induction h generalizing position with
  | nil => exact .none
  | cons hitem _ ih =>
    cases position with
    | zero => exact .some hitem
    | succ position => exact ih position

theorem matches_set {xs ys : List Json} {x y : Json} (h : Forall₂ Matches xs ys)
    (hitem : x.Matches y) (position : Nat) :
    Forall₂ Matches (xs.set position x) (ys.set position y) := by
  induction h generalizing position with
  | nil => exact .nil
  | cons hfirst hrest ih =>
    cases position with
    | zero => exact .cons hitem hrest
    | succ position => exact .cons hfirst (ih position)

theorem matches_eraseIdx {xs ys : List Json} (h : Forall₂ Matches xs ys) (position : Nat) :
    Forall₂ Matches (xs.eraseIdx position) (ys.eraseIdx position) := by
  induction h generalizing position with
  | nil => exact .nil
  | cons hfirst hrest ih =>
    cases position with
    | zero => exact hrest
    | succ position => exact .cons hfirst (ih position)

namespace Matches

variable {x y z : Json}

/-- Reading goes the same way in both. -/
theorem getSteps? (h : x.Matches y) (steps : List Step) :
    Place.Matches (Json.getSteps? steps x) (Json.getSteps? steps y) := by
  induction steps generalizing x y with
  | nil =>
    rw [getSteps?_nil, getSteps?_nil]
    exact .some h
  | cons step rest ih =>
    rcases h.cases with ⟨xs, ys, rfl, rfl, hitems⟩ | ⟨xs, ys, rfl, rfl, hmembers⟩ | ⟨rfl, hscalar⟩
    · cases step with
      | key name => exact .none
      | index position =>
        rw [getSteps?_index, getSteps?_index]
        exact (matches_getElem? hitems position).bind fun _ _ ↦ ih
    · cases step with
      | key name =>
        rw [getSteps?_key, getSteps?_key]
        exact ((matches_object_iff.mp hmembers).2.2 name).bind fun _ _ ↦ ih
      | index position => exact .none
    · cases x with
      | array _ => exact hscalar.elim
      | object _ => exact hscalar.elim
      | _ => cases step <;> exact .none

theorem get? (h : x.Matches y) (path : FieldPath) : Place.Matches (x.get? path) (y.get? path) :=
  h.getSteps? path.steps

/-- Matching is having the same leaves. -/
theorem sameLeaves (h : x.Matches y) : x.SameLeaves y := by
  intro steps
  unfold leaf?
  have hsteps := h.getSteps? steps
  cases hfirst : Json.getSteps? steps x with
  | none =>
    rw [hsteps.eq_none_iff.mp hfirst]
  | some value =>
    obtain ⟨found, hfound, hvalue⟩ := hsteps.exists_right hfirst
    rw [hfound, Option.filter_some, Option.filter_some, hvalue.isLeaf_eq]
    split
    · next hleaf => rw [hvalue.eq_of_isLeaf (hvalue.isLeaf_eq ▸ hleaf)]
    · rfl

theorem of_sameLeaves (hx : x.WellFormed) (hy : y.WellFormed) (h : x.SameLeaves y) :
    x.Matches y := ⟨hx, hy, alike_of_sameLeaves x hx hy h⟩

theorem refl (h : x.WellFormed) : x.Matches x := of_sameLeaves h h fun _ ↦ rfl

theorem symm (h : x.Matches y) : y.Matches x :=
  of_sameLeaves h.right h.left fun steps ↦ (h.sameLeaves steps).symm

theorem trans (h : x.Matches y) (hother : y.Matches z) : x.Matches z :=
  of_sameLeaves h.left hother.right fun steps ↦
    (h.sameLeaves steps).trans (hother.sameLeaves steps)

theorem isObject_eq (h : x.Matches y) : x.isObject = y.isObject := by
  rcases h.cases with ⟨_, _, rfl, rfl, -⟩ | ⟨_, _, rfl, rfl, -⟩ | ⟨rfl, -⟩ <;> rfl

theorem isVacant_eq (h : x.Matches y) : x.isVacant = y.isVacant := by
  have hleaf := h.isLeaf_eq
  rcases h.cases with ⟨_, _, rfl, rfl, -⟩ | ⟨_, _, rfl, rfl, -⟩ | ⟨rfl, -⟩
  · exact hleaf
  · exact hleaf
  · rfl

theorem members (h : x.Matches y) : (object x.members).Matches (object y.members) := by
  rcases h.cases with ⟨_, _, rfl, rfl, -⟩ | ⟨_, _, rfl, rfl, hmembers⟩ | ⟨rfl, -⟩
  · exact refl ⟨List.nodup_nil, trivial⟩
  · exact hmembers
  · exact refl h.left.members

/-! ## Changing matching values -/

section Members

variable {xs ys : Members}

theorem member (h : (object xs).Matches (object ys)) (key : String) :
    Place.Matches (xs.get? key) (ys.get? key) := (matches_object_iff.mp h).2.2 key

theorem insert (h : (object xs).Matches (object ys)) (hvalue : x.Matches y) (key : String) :
    (object (xs.insert key x)).Matches (object (ys.insert key y)) := by
  refine matches_object_iff.mpr ⟨Association.nodup_map_fst_insert _ _ h.left.nodup,
    Association.nodup_map_fst_insert _ _ h.right.nodup, fun other ↦ ?_⟩
  rw [Members.get?, Members.get?, Members.insert, Members.insert, Association.get?_insert,
    Association.get?_insert]
  split
  · exact .some hvalue
  · exact h.member other

theorem erase (h : (object xs).Matches (object ys)) (key : String) :
    (object (xs.erase key)).Matches (object (ys.erase key)) := by
  refine matches_object_iff.mpr ⟨Association.nodup_map_fst_erase _ h.left.nodup,
    Association.nodup_map_fst_erase _ h.right.nodup, fun other ↦ ?_⟩
  rw [Members.get?, Members.get?, Members.erase, Members.erase,
    Association.get?_erase _ _ h.left.nodup, Association.get?_erase _ _ h.right.nodup]
  split
  · exact .none
  · exact h.member other

end Members

/-- Layers that match leave matching values on matching values. -/
theorem overlay {layer other : Json} (hlayer : layer.Matches other) (h : x.Matches y) :
    (x.overlay layer).Matches (y.overlay other) := by
  induction hheight : layer.height using Nat.strongRecOn generalizing x y layer other with
  | ind height ih =>
    rcases hlayer.cases with ⟨_, _, rfl, rfl, -⟩ | ⟨us, vs, rfl, rfl, -⟩ | ⟨rfl, hscalar⟩
    · exact hlayer
    · refine matches_object_iff.mpr ⟨nodup_map_fst_overlayMembers h.left.members.nodup us,
        nodup_map_fst_overlayMembers h.right.members.nodup vs, fun key ↦ ?_⟩
      rw [get?_overlayMembers hlayer.left.nodup, get?_overlayMembers hlayer.right.nodup]
      have htarget := h.members.member key
      have hkey := hlayer.member key
      cases hvalue : Members.get? us key with
      | none =>
        rw [hkey.eq_none_iff.mp hvalue]
        exact htarget
      | some value =>
        obtain ⟨found, hfound, hmatches⟩ := hkey.exists_right hvalue
        rw [hfound]
        refine .some ?_
        have hlow : value.height < height := by
          rw [← hheight, Json.height]
          exact Nat.lt_succ_of_le (height_member_le hvalue)
        cases hold : Members.get? x.members key with
        | none =>
          rw [htarget.eq_none_iff.mp hold]
          exact hmatches
        | some old =>
          obtain ⟨before, hbefore, hboth⟩ := htarget.exists_right hold
          rw [hbefore]
          exact ih _ hlow hmatches hboth rfl
    · cases layer with
      | array _ => exact hscalar.elim
      | object _ => exact hscalar.elim
      | _ => exact hlayer

end Matches

/-! ## Writing -/

theorem Place.Matches.getD_null {place other : Place} (h : place.Matches other) :
    (place.getD null).Matches (other.getD null) := h.getD (Matches.refl trivial)

theorem Place.matches_ofDocument {x y : Json} (h : x.Matches y) :
    Place.Matches (Place.ofDocument x) (Place.ofDocument y) := by
  rcases h.cases with ⟨_, _, rfl, rfl, -⟩ | ⟨_, _, rfl, rfl, -⟩ | ⟨rfl, -⟩
  · exact .some h
  · exact .some h
  · cases x with
    | null => exact .none
    | _ => exact .some h

/-- On matching places the two actions come to the same outcome and leave matching places. -/
def Action.Agree {α : Type} (action other : Action α) : Prop :=
  ∀ place twin, Place.Matches place twin →
    (action place).1 = (other twin).1 ∧ Place.Matches (action place).2 (other twin).2

section Actions

variable {value other : Json}

theorem fill_agree (path : FieldPath) (h : value.Matches other) :
    Action.Agree (fill path value) (fill path other) := by
  intro place twin hplace
  cases hplace with
  | none => exact ⟨rfl, .some h⟩
  | @some old _ hold =>
    rcases hold.cases with ⟨_, _, rfl, rfl, -⟩ | ⟨_, _, rfl, rfl, -⟩ | ⟨rfl, hscalar⟩
    · exact ⟨rfl, .some hold⟩
    · exact ⟨rfl, .some hold⟩
    · cases old <;> first | exact hscalar.elim | exact ⟨rfl, .some hold⟩

theorem addItem_agree (path : FieldPath) (h : value.Matches other) :
    Action.Agree (addItem path value) (addItem path other) := by
  intro place twin hplace
  cases hplace with
  | none => exact ⟨rfl, .some (matches_array_iff.mpr (.cons h .nil))⟩
  | @some old _ hold =>
    rcases hold.cases with ⟨xs, ys, rfl, rfl, hitems⟩ | ⟨_, _, rfl, rfl, -⟩ | ⟨rfl, hscalar⟩
    · refine ⟨congrArg Except.ok hitems.length_eq, .some (matches_array_iff.mpr ?_)⟩
      exact List.rel_append hitems (.cons h .nil)
    · exact ⟨rfl, .some hold⟩
    · cases old <;> first | exact hscalar.elim | exact ⟨rfl, .some hold⟩

theorem layOver_agree (h : value.Matches other) :
    Action.Agree (layOver value) (layOver other) :=
  fun _ _ hplace ↦ ⟨rfl, .some (h.overlay hplace.getD_null)⟩

end Actions

/-- A walk along the same steps comes to the same outcome and leaves matching places. -/
theorem walk_agree {α : Type} (path : FieldPath) {action other : Action α}
    (h : Action.Agree action other) (steps taken : List Step) :
    Action.Agree (walk path action taken steps) (walk path other taken steps) := by
  induction steps generalizing taken with
  | nil => exact h
  | cons step rest ih =>
    intro place twin hplace
    cases step with
    | key name =>
      cases hplace with
      | none =>
        obtain ⟨houtcome, hinner⟩ := ih (taken ++ [.key name]) none none .none
        refine ⟨houtcome, .some ?_⟩
        exact (Matches.refl ⟨List.nodup_nil, trivial⟩ : (object []).Matches (object [])).insert
          hinner.getD_null name
      | @some old _ hold =>
        rcases hold.cases with ⟨_, _, rfl, rfl, -⟩ | ⟨xs, ys, rfl, rfl, -⟩ | ⟨rfl, hscalar⟩
        · exact ⟨rfl, .some hold⟩
        · obtain ⟨houtcome, hinner⟩ := ih (taken ++ [.key name]) _ _ (hold.member name)
          exact ⟨houtcome, .some (hold.insert hinner.getD_null name)⟩
        · cases old <;> first | exact hscalar.elim | exact ⟨rfl, .some hold⟩
    | index position =>
      cases hplace with
      | none => exact ⟨rfl, .none⟩
      | @some old _ hold =>
        rcases hold.cases with ⟨xs, ys, rfl, rfl, hitems⟩ | ⟨xs, ys, rfl, rfl, -⟩ | ⟨rfl, hscalar⟩
        · have hitem := matches_getElem? hitems position
          cases hfirst : xs[position]? with
          | none =>
            simp only [walk, hfirst, hitem.eq_none_iff.mp hfirst, hitems.length_eq]
            exact ⟨trivial, .some hold⟩
          | some item =>
            obtain ⟨found, hfound, hmatches⟩ := hitem.exists_right hfirst
            obtain ⟨houtcome, hinner⟩ := ih (taken ++ [.index position]) _ _ (.some hmatches)
            simp only [walk, hfirst, hfound]
            exact ⟨houtcome, .some (matches_array_iff.mpr (matches_set hitems hinner.getD_null _))⟩
        · exact ⟨rfl, .some hold⟩
        · cases old <;> first | exact hscalar.elim | exact ⟨rfl, .some hold⟩

/-- A writer comes to the same outcome on matching documents, which still match afterwards. -/
theorem write_agree {α : Type} (path : FieldPath) {action other : Action α} {x y : Json}
    (h : Action.Agree action other) (hdocument : x.Matches y) :
    (x.write path action).1 = (y.write path other).1 ∧
      (x.write path action).2.Matches (y.write path other).2 := by
  obtain ⟨houtcome, hplace⟩ :=
    walk_agree path h path.steps [] _ _ (Place.matches_ofDocument hdocument)
  exact ⟨houtcome, hplace.getD_null⟩

end ManifestTree.Json
