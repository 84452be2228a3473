import ManifestTree.Proofs.ComposedDocuments
import ManifestTree.Proofs.Relocation

/-!
# What laying a value over a document replaces

Laying a layer over a value replaces what stands where the two clash: where both hold something, it
differs, and they are not both objects. Elsewhere nothing is lost: what stands at a path apart from
all clashes stays there, extended at most. The layer itself is always there afterwards, with the
keys of the value below it besides its own. Layers must not repeat a key.
-/

namespace ManifestTree

namespace Json

/-! ## Values inside others -/

/-- Whatever is read in the first value is read in the second one too, extended at most; an object
may have further keys anywhere among its own. -/
def ContainedIn (old new : Json) : Prop :=
  ∀ steps value, getSteps? steps old = some value → ∃ found, getSteps? steps new = some found ∧
    (value.ExtendedBy found ∨ value.isObject ∧ found.isObject)

theorem ExtendedBy.isObject_eq {old new : Json} (h : old.ExtendedBy new) :
    new.isObject = old.isObject := by
  cases old with
  | object members =>
    obtain ⟨more, rfl, -⟩ := extendedBy_object_iff.mp h
    rfl
  | array items =>
    obtain ⟨more, rfl, -⟩ := extendedBy_array_iff.mp h
    rfl
  | _ => rw [h.eq_of_isScalar trivial]

namespace ContainedIn

theorem of_extendedBy {old new : Json} (h : old.ExtendedBy new) : old.ContainedIn new := by
  intro steps value hvalue
  obtain ⟨found, hfound, hextends⟩ := h.getSteps? hvalue
  exact ⟨found, hfound, Or.inl hextends⟩

theorem refl (value : Json) : value.ContainedIn value := of_extendedBy (ExtendedBy.refl value)

theorem trans_extendedBy {old middle new : Json} (h : old.ContainedIn middle)
    (hnew : middle.ExtendedBy new) : old.ContainedIn new := by
  intro steps value hvalue
  obtain ⟨found, hfound, hkept⟩ := h steps value hvalue
  obtain ⟨last, hlast, hextends⟩ := hnew.getSteps? hfound
  refine ⟨last, hlast, ?_⟩
  rcases hkept with hkept | ⟨hobject, hfoundObject⟩
  · exact Or.inl (hkept.trans hextends)
  · exact Or.inr ⟨hobject, hextends.isObject_eq.trans hfoundObject⟩

/-- A scalar is contained in itself alone. -/
theorem eq_of_isScalar {old new : Json} (h : old.ContainedIn new) (hscalar : old.IsScalar) :
    new = old := by
  obtain ⟨found, hfound, hkept⟩ := h [] old (getSteps?_nil old)
  rw [getSteps?_nil] at hfound
  cases hfound
  rcases hkept with hextends | ⟨hobject, -⟩
  · exact hextends.eq_of_isScalar hscalar
  · cases old with
    | object members => exact hscalar.elim
    | _ => cases hobject

/-- Only null is contained in null. -/
theorem eq_null {old : Json} (h : old.ContainedIn null) : old = null := by
  obtain ⟨found, hfound, hkept⟩ := h [] old (getSteps?_nil old)
  rw [getSteps?_nil] at hfound
  cases hfound
  rcases hkept with hextends | ⟨-, hobject⟩
  · by_contra hold
    exact hextends.ne_null hold rfl
  · cases hobject

end ContainedIn

/-! ## Clashes -/

/-- Two values for one place of which only one can stand there. -/
def Clash (old new : Json) : Prop := old ≠ new ∧ ¬ (old.isObject ∧ new.isObject)

/-- A value over one that it clashes with replaces it. -/
theorem overlay_of_clash {old new : Json} (h : old.Clash new) (hnew : new.WellFormed) :
    old.overlay new = new := by
  cases new with
  | object layer =>
    have hmembers : old.members = [] := by
      cases old with
      | object members => exact absurd ⟨rfl, rfl⟩ h.2
      | _ => rfl
    rw [overlay, hmembers, overlayMembers_nil hnew.nodup]
  | _ => rfl

/-- At every place of a layer its own value stands afterwards, laid over the one before at most. -/
theorem getSteps?_overlay {steps : List Step} {layer new : Json} (hlayer : layer.WellFormed)
    (h : getSteps? steps layer = some new) (target : Json) :
    ∃ found, getSteps? steps (target.overlay layer) = some found ∧
      (found = new ∨ ∃ old, getSteps? steps target = some old ∧ found = old.overlay new) := by
  induction steps generalizing layer target with
  | nil =>
    rw [getSteps?_nil] at h
    cases h
    exact ⟨_, getSteps?_nil _, Or.inr ⟨target, getSteps?_nil target, rfl⟩⟩
  | cons step rest ih =>
    cases step with
    | key name =>
      cases layer with
      | object layer =>
        rw [getSteps?_key, Option.bind_eq_some_iff] at h
        obtain ⟨inner, hinner, hnew⟩ := h
        rw [overlay, getSteps?_key, get?_overlayMembers hlayer.nodup, hinner]
        cases hold : Members.get? target.members name with
        | none => exact ⟨new, hnew, Or.inl rfl⟩
        | some old =>
          obtain ⟨found, hfound, hlaid⟩ := ih (hlayer.member hinner) hnew old
          refine ⟨found, hfound, hlaid.imp_right ?_⟩
          rintro ⟨before, hbefore, hlaid⟩
          refine ⟨before, ?_, hlaid⟩
          cases target with
          | object members =>
            have hmember : Members.get? members name = some old := hold
            rw [getSteps?_key, hmember]
            exact hbefore
          | _ => cases hold
      | _ => cases h
    | index position =>
      cases layer with
      | array items => exact ⟨new, h, Or.inl rfl⟩
      | _ => cases h

/-- Whatever a layer contains is there afterwards. -/
theorem ContainedIn.overlay {value layer : Json} (h : value.ContainedIn layer)
    (hlayer : layer.WellFormed) (target : Json) : value.ContainedIn (target.overlay layer) := by
  intro steps inner hinner
  obtain ⟨new, hnew, hkept⟩ := h steps inner hinner
  obtain ⟨found, hfound, hlaid⟩ := getSteps?_overlay hlayer hnew target
  refine ⟨found, hfound, ?_⟩
  rcases hlaid with rfl | ⟨old, -, rfl⟩
  · exact hkept
  · cases new with
    | object members =>
      have hobject : inner.isObject := by
        rcases hkept with hextends | ⟨hobject, -⟩
        · exact hextends.isObject_eq.symm
        · exact hobject
      exact Or.inr ⟨hobject, rfl⟩
    | _ => exact hkept

def ClashAt (steps : List Step) (target layer : Json) : Prop :=
  ∃ old new, getSteps? steps target = some old ∧ getSteps? steps layer = some new ∧ old.Clash new

theorem ClashAt.member {name : String} {members layer : Members} {old inner : Json}
    {steps : List Step} (hold : members.get? name = some old)
    (hinner : layer.get? name = some inner) (h : ClashAt steps old inner) :
    ClashAt (.key name :: steps) (object members) (object layer) := by
  obtain ⟨before, after, hbefore, hafter, hclash⟩ := h
  refine ⟨before, after, ?_, ?_, hclash⟩
  · rw [getSteps?_key, hold]
    exact hbefore
  · rw [getSteps?_key, hinner]
    exact hafter

/-- Two values that do not clash are equal, or both are objects. -/
theorem eq_or_isObject_of_not_clashAt {target layer : Json} (h : ¬ ClashAt [] target layer) :
    target = layer ∨ target.isObject ∧ layer.isObject := by
  by_contra hnot
  obtain ⟨hne, hobject⟩ := not_or.mp hnot
  exact h ⟨target, layer, getSteps?_nil target, getSteps?_nil layer, hne, hobject⟩

/-! ## What is kept below a layer -/

theorem membersExtendedBy_overlayMembers {target layer : Members}
    (hlayer : (layer.map Prod.fst).Nodup)
    (h : ∀ key old value, target.get? key = some old → layer.get? key = some value →
      old.ExtendedBy (old.overlay value)) :
    MembersExtendedBy target (overlayMembers target layer) := by
  induction layer generalizing target with
  | nil => exact MembersExtendedBy.refl target
  | cons entry rest ih =>
    rcases entry with ⟨name, value⟩
    rw [List.map_cons, List.nodup_cons] at hlayer
    rw [overlayMembers_cons]
    have hinsert : MembersExtendedBy target
        (target.insert name (laidOver value (target.get? name))) := by
      apply membersExtendedBy_insert
      intro old hold
      rw [hold]
      exact h name old value hold (Association.get?_cons_self name value rest)
    refine MembersExtendedBy.trans_of target hinsert (ih hlayer.2 ?_)
    intro key old inner hold hinner
    have hne : name ≠ key := by
      rintro rfl
      rw [Members.get?, Association.get?_eq_none_iff.mpr hlayer.1] at hinner
      cases hinner
    rw [Members.get?, Members.insert, Association.get?_insert_of_ne hne] at hold
    refine h key old inner hold ?_
    rw [Members.get?, Association.get?_cons_of_ne hne]
    exact hinner

/-- A layer that clashes nowhere only extends the value below it. -/
theorem extendedBy_overlay {target layer : Json} (hlayer : layer.WellFormed)
    (hclash : ∀ steps, ¬ ClashAt steps target layer) :
    target.ExtendedBy (target.overlay layer) := by
  induction hheight : layer.height using Nat.strongRecOn generalizing target layer with
  | ind height ih =>
    rcases eq_or_isObject_of_not_clashAt (hclash []) with rfl | ⟨htarget, hobject⟩
    · rw [overlay_of_extendedBy (ExtendedBy.refl target) hlayer]
      exact ExtendedBy.refl target
    · cases layer with
      | object layer =>
        cases target with
        | object members =>
          apply membersExtendedBy_overlayMembers hlayer.nodup
          intro key old value hold hvalue
          have hlow : value.height < height := by
            rw [← hheight, Json.height]
            exact Nat.lt_succ_of_le (height_member_le hvalue)
          refine ih _ hlow (hlayer.member hvalue) (fun steps hinside ↦ ?_) rfl
          exact hclash _ (hinside.member hold hvalue)
        | _ => cases htarget
      | _ => cases hobject

/-- What stands apart from all clashes with a layer is still there, extended at most. -/
theorem kept_of_overlay {steps : List Step} {target layer found : Json} (hlayer : layer.WellFormed)
    (hapart : ∀ more, ClashAt more target layer → Apart more steps)
    (h : getSteps? steps target = some found) :
    ∃ kept, getSteps? steps (target.overlay layer) = some kept ∧ found.ExtendedBy kept := by
  induction steps generalizing target layer with
  | nil =>
    rw [getSteps?_nil] at h
    cases h
    refine ⟨_, getSteps?_nil _, extendedBy_overlay hlayer fun more hclash ↦ ?_⟩
    exact (hapart more hclash).2 List.nil_prefix
  | cons step rest ih =>
    have hhere : ¬ ClashAt [] target layer := fun hclash ↦ (hapart [] hclash).1 List.nil_prefix
    rcases eq_or_isObject_of_not_clashAt hhere with rfl | ⟨htarget, hobject⟩
    · rw [overlay_of_extendedBy (ExtendedBy.refl target) hlayer]
      exact ⟨found, h, ExtendedBy.refl found⟩
    · cases target with
      | object members =>
        cases layer with
        | object layer =>
          cases step with
          | key name =>
            rw [getSteps?_key, Option.bind_eq_some_iff] at h
            obtain ⟨old, hold, hfound⟩ := h
            rw [overlay, getSteps?_key, get?_overlayMembers hlayer.nodup]
            dsimp only [Json.members]
            cases hinner : Members.get? layer name with
            | none =>
              rw [hold]
              exact ⟨found, hfound, ExtendedBy.refl found⟩
            | some inner =>
              rw [hold]
              refine ih (hlayer.member hinner) (fun more hclash ↦ ?_) hfound
              have hmore := hapart _ (hclash.member hold hinner)
              exact ⟨fun hstart ↦ hmore.1 (List.cons_prefix_cons.mpr ⟨rfl, hstart⟩),
                fun hstart ↦ hmore.2 (List.cons_prefix_cons.mpr ⟨rfl, hstart⟩)⟩
          | index position => cases h
        | _ => cases hobject
      | _ => cases htarget

/-! ## What is kept around a replaced value -/

/-- Replacing a value by an extension extends everything around it. -/
theorem Leads.extendedBy_replaceSteps {base : List Step} {document old value : Json}
    (h : Leads old base document) (hextends : old.ExtendedBy value) :
    document.ExtendedBy (replaceSteps value base document) := by
  induction h with
  | here => exact hextends
  | member hinner _ ih =>
    rw [replaceSteps_key hinner]
    apply membersExtendedBy_insert
    intro before hbefore
    cases hinner.symm.trans hbefore
    exact ih
  | item hinner _ ih =>
    rw [replaceSteps_index hinner]
    exact itemsExtendedBy_set hinner ih

/-- After replacing a value, what is read elsewhere stays; what is read inside or around stays as
far as the new value keeps what the old one had. -/
theorem Leads.kept_of_replaceSteps {base steps : List Step} {document old value found : Json}
    (h : Leads old base document) (hfound : getSteps? steps document = some found)
    (hinside : ∀ rest, steps = base ++ rest → ∀ inner, getSteps? rest old = some inner →
      ∃ kept, getSteps? rest value = some kept ∧ inner.ExtendedBy kept)
    (haround : steps <+: base → old.ExtendedBy value) :
    ∃ kept, getSteps? steps (replaceSteps value base document) = some kept ∧
      found.ExtendedBy kept := by
  induction h generalizing steps with
  | here => exact hinside steps rfl found hfound
  | @member name rest members inner hinner hlead ih =>
    cases steps with
    | nil =>
      rw [getSteps?_nil] at hfound
      cases hfound
      have hextends := haround List.nil_prefix
      exact ⟨_, getSteps?_nil _, (Leads.member hinner hlead).extendedBy_replaceSteps hextends⟩
    | cons step more =>
      rw [replaceSteps_key hinner, getSteps?_insert]
      split
      · next hstep =>
        subst hstep
        rw [getSteps?_key, hinner] at hfound
        refine ih hfound (fun last hlast ↦ hinside last (congrArg _ hlast)) fun hstart ↦ ?_
        exact haround (List.cons_prefix_cons.mpr ⟨rfl, hstart⟩)
      · exact ⟨found, hfound, ExtendedBy.refl found⟩
  | @item position rest items inner hinner hlead ih =>
    cases steps with
    | nil =>
      rw [getSteps?_nil] at hfound
      cases hfound
      have hextends := haround List.nil_prefix
      exact ⟨_, getSteps?_nil _, (Leads.item hinner hlead).extendedBy_replaceSteps hextends⟩
    | cons step more =>
      rw [replaceSteps_index hinner, getSteps?_set hinner]
      split
      · next hstep =>
        subst hstep
        rw [getSteps?_index, hinner] at hfound
        refine ih hfound (fun last hlast ↦ hinside last (congrArg _ hlast)) fun hstart ↦ ?_
        exact haround (List.cons_prefix_cons.mpr ⟨rfl, hstart⟩)
      · exact ⟨found, hfound, ExtendedBy.refl found⟩

/-! ## Laying over a place of a document -/

/-- A walk depends on its action at the place alone where it ends. -/
theorem walk_congr {α : Type} {action other : Action α} (path : FieldPath) (steps : List Step) :
    ∀ (taken : List Step) (place : Place),
      action (place.bind (getSteps? steps)) = other (place.bind (getSteps? steps)) →
      walk path action taken steps place = walk path other taken steps place := by
  induction steps with
  | nil =>
    intro taken place h
    have hread : place.bind (getSteps? []) = place := by cases place <;> rfl
    rw [hread] at h
    exact h
  | cons step rest ih =>
    intro taken place h
    cases step with
    | key name =>
      cases place with
      | none => rw [walk, walk, ih (taken ++ [Step.key name]) none h]
      | some outer =>
        cases outer with
        | object members =>
          rw [Option.bind_some, getSteps?_key] at h
          rw [walk, walk, ih (taken ++ [Step.key name]) (Members.get? members name) h]
        | _ => rfl
    | index position =>
      cases place with
      | none => rfl
      | some outer =>
        cases outer with
        | array items =>
          rw [Option.bind_some, getSteps?_index] at h
          rw [walk, walk]
          cases hitem : items[position]? with
          | none => rfl
          | some item =>
            rw [hitem] at h
            dsimp only
            rw [ih (taken ++ [Step.index position]) (some item) h]
        | _ => rfl

section Laying

variable {document layer after : Json} {base path : FieldPath}

/-- Over something that the document holds, the layer is laid in its place. -/
theorem mergeAt_of_get? {old : Json} (h : document.get? base = some old) (layer : Json) :
    document.mergeAt base layer = (.ok (), document.replace base (old.overlay layer)) := by
  have hlead : Leads old base.steps document := leads_of_getSteps? h
  by_cases hdocument : document = null
  · subst hdocument
    rcases base with ⟨steps⟩
    cases hlead
    rfl
  · have hwalk := hlead.walk_append base (layOver layer) [] []
    rw [List.append_nil] at hwalk
    simp only [Prod.map, Prod.mk.injEq, id] at hwalk
    rw [Json.mergeAt, write, Place.ofDocument_eq_some hdocument]
    simp only [Prod.mk.injEq]
    exact hwalk

/-- Where the document holds nothing, the layer is set. -/
theorem mergeAt_of_get?_eq_none (h : document.get? base = none) (layer : Json) :
    document.mergeAt base layer = document.set base (null.overlay layer) := by
  have hplace : (Place.ofDocument document).bind (getSteps? base.steps) = none := by
    cases document with
    | null => rfl
    | _ => exact h
  have hwalk : walk base (layOver layer) [] base.steps (Place.ofDocument document) =
      walk base (fill base (null.overlay layer)) [] base.steps (Place.ofDocument document) := by
    apply walk_congr
    rw [hplace]
    rfl
  rw [Json.mergeAt, Json.set, write, write, hwalk]

/-- What was set is there, also in a document that was vacant. -/
theorem get?_of_set {value : Json} {answer : Unit}
    (h : document.set base value = (.ok answer, after)) : after.get? base = some value := by
  rcases hwalk : walk base (fill base value) [] base.steps (Place.ofDocument document)
    with ⟨outcome, below⟩
  simp only [Json.set, write, hwalk] at h
  cases h
  obtain ⟨_, rfl, -, found, hfill, hfound⟩ := walk_reached (fill_onlyAdds base value) hwalk
  obtain ⟨-, heq⟩ := fill_eq_ok hfill
  cases heq
  exact hfound

/-- What was appended stands behind the items that the place held. -/
theorem items_of_append {value : Json} {answer : Nat}
    (h : document.append base value = (.ok answer, after)) :
    ∃ items, ((Place.ofDocument document).bind (getSteps? base.steps) = none ∧ items = [] ∨
        (Place.ofDocument document).bind (getSteps? base.steps) = some (array items)) ∧
      answer = items.length ∧ after.get? base = some (array (items ++ [value])) := by
  rcases hwalk : walk base (addItem base value) [] base.steps (Place.ofDocument document)
    with ⟨outcome, below⟩
  simp only [Json.append, write, hwalk] at h
  cases h
  obtain ⟨result, rfl, -, found, hadd, hfound⟩ := walk_reached (addItem_onlyAdds base value) hwalk
  obtain ⟨items, hplace, rfl, heq⟩ := addItem_eq_ok hadd
  cases heq
  exact ⟨items, hplace, rfl, hfound⟩

/-- What was appended is there at the answered index, also in a document that was vacant. -/
theorem get?_of_append {value : Json} {answer : Nat}
    (h : document.append base value = (.ok answer, after)) :
    after.get? (base.index answer) = some value := by
  obtain ⟨items, -, rfl, hafter⟩ := items_of_append h
  have hread : after.get? (base.index items.length) =
      (after.get? base).bind (getSteps? [.index items.length]) :=
    getSteps?_append base.steps [.index items.length] after
  rw [hread, hafter]
  simp [getSteps?]

/-- Where the layer was laid, it stands over what was there. -/
theorem get?_of_mergeAt (h : document.mergeAt base layer = (.ok (), after)) :
    after.get? base = some (((document.get? base).getD null).overlay layer) := by
  cases hold : document.get? base with
  | none =>
    rw [mergeAt_of_get?_eq_none hold] at h
    exact get?_of_set h
  | some old =>
    rw [mergeAt_of_get? hold] at h
    cases h
    exact (leads_of_getSteps? hold).getSteps?_replaceSteps _

/-- After laying, whatever the layer has somewhere is there. -/
theorem contained_of_mergeAt {value found : Json} (hlayer : layer.WellFormed)
    (hmerge : document.mergeAt base layer = (.ok (), after)) (hfound : layer.get? path = some found)
    (h : value.ContainedIn found) :
    ∃ kept, after.get? (base.join path) = some kept ∧ value.ContainedIn kept := by
  obtain ⟨kept, hkept, hlaid⟩ :=
    getSteps?_overlay hlayer hfound ((document.get? base).getD null)
  refine ⟨kept, ?_, ?_⟩
  · rw [get?_join, get?_of_mergeAt hmerge]
    exact hkept
  · rcases hlaid with rfl | ⟨old, -, rfl⟩
    · exact h
    · exact h.overlay (hlayer.inside hfound) old

/-- What stands apart from the clashes is still there after laying, extended at most. -/
theorem kept_of_mergeAt {found : Json} (hlayer : layer.WellFormed) (hdocument : document ≠ null)
    (hmerge : document.mergeAt base layer = (.ok (), after))
    (hapart : ∀ rest old new, document.get? (base.join rest) = some old →
      layer.get? rest = some new → old.Clash new → Apart (base.join rest).steps path.steps)
    (h : document.get? path = some found) :
    ∃ kept, after.get? path = some kept ∧ found.ExtendedBy kept := by
  cases hold : document.get? base with
  | none =>
    rw [mergeAt_of_get?_eq_none hold] at hmerge
    exact (set_extendedBy hdocument hmerge).1.get? h
  | some old =>
    rw [mergeAt_of_get? hold] at hmerge
    cases hmerge
    have hinside (more : List Step) (hclash : ClashAt more old layer) :
        Apart (base.steps ++ more) path.steps := by
      obtain ⟨before, new, hbefore, hnew, hclash⟩ := hclash
      refine hapart ⟨more⟩ before new ?_ hnew hclash
      rw [get?_join, hold]
      exact hbefore
    refine (leads_of_getSteps? hold).kept_of_replaceSteps h (fun rest hrest inner hinner ↦ ?_)
      fun hstart ↦ ?_
    · refine kept_of_overlay hlayer (fun more hclash ↦ ?_) hinner
      have hmore := hinside more hclash
      rw [hrest] at hmore
      exact ⟨fun hstart ↦ hmore.1 ((List.prefix_append_right_inj _).mpr hstart),
        fun hstart ↦ hmore.2 ((List.prefix_append_right_inj _).mpr hstart)⟩
    · refine extendedBy_overlay hlayer fun more hclash ↦ ?_
      exact (hinside more hclash).2 (hstart.trans (List.prefix_append _ _))

/-- Where the document and the layer clash, laying succeeds, and the layer's value stands there. -/
theorem replaced_of_clash {old new : Json} (hlayer : layer.WellFormed)
    (hold : document.get? (base.join path) = some old) (hnew : layer.get? path = some new)
    (hclash : old.Clash new) :
    ∃ after, document.mergeAt base layer = (.ok (), after) ∧
      after.get? (base.join path) = some new := by
  rw [get?_join, Option.bind_eq_some_iff] at hold
  obtain ⟨whole, hwhole, hinner⟩ := hold
  refine ⟨_, mergeAt_of_get? hwhole layer, ?_⟩
  have hreplaced : (document.replace base (whole.overlay layer)).get? base =
      some (whole.overlay layer) := (leads_of_getSteps? hwhole).getSteps?_replaceSteps _
  obtain ⟨found, hfound, hlaid⟩ := getSteps?_overlay hlayer hnew whole
  have hread : found = new := by
    rcases hlaid with rfl | ⟨before, hbefore, rfl⟩
    · rfl
    · cases hbefore.symm.trans hinner
      exact overlay_of_clash hclash (hlayer.inside hnew)
  rw [get?_join, hreplaced, ← hread]
  exact hfound

end Laying

end Json
end ManifestTree
