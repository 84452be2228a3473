import ManifestTree.Proofs.LaidValues

/-!
# Values that go into a document

A deposit is a value on its way into a document: what the document was before, where the value goes,
whether it is laid over what stands there or put where nothing may stand, and which values of the
tree's author it shows at which places. A chronicle is a document's deposits in order. What one of
them shows is still there in the end, unless a later one is laid over the document and clashes with
what stands at the place, above it or inside it.
-/

namespace ManifestTree

open Json

/-! ## Properties among the fields -/

namespace FieldRules

/-- Where the value of a property stands among the fields: a hoisted one inside `metadata`, the
members of an opened one at their own keys, every other one at its key. -/
def homesOf (rules : FieldRules) (marker key : String) (value : Json) : List Placement :=
  match rules.hoisted? marker key with
  | some inner => [⟨.ofKeys [metadataKey, inner], value⟩]
  | none =>
    match rules.opened? key value with
    | some members => members.map fun (name, inner) ↦ ⟨.ofKeys [name], inner⟩
    | none => [⟨.ofKeys [key], value⟩]

/-- Where the values of properties stand among the fields, in the order of the properties. -/
def homes (rules : FieldRules) (marker : String) (props : Members) : List Placement :=
  props.flatMap fun (key, value) ↦ rules.homesOf marker key value

/-- Whatever the first members have at a key, the second ones have there. -/
def Finds (members after : Members) : Prop :=
  ∀ key value, members.get? key = some value → after.get? key = some value

theorem Finds.refl (members : Members) : Finds members members := fun _ _ h ↦ h

theorem Finds.trans {members middle after : Members} (h : Finds members middle)
    (hnext : Finds middle after) : Finds members after :=
  fun key value hget ↦ hnext key value (h key value hget)

theorem insertNew_finds {members after : Members} {key : String} {value : Json}
    (h : insertNew members key value = .ok after) :
    Finds members after ∧ after.get? key = some value := by
  unfold insertNew at h
  split at h
  · cases h
  · next hfree =>
    cases h
    have hget : members.get? key = none := by simpa [Members.has] using hfree
    rw [← Association.insert_of_not_mem value (Association.get?_eq_none_iff.mp hget)]
    refine ⟨fun other found hfound ↦ ?_, Association.get?_insert_self key value members⟩
    have hne : key ≠ other := by
      rintro rfl
      rw [hget] at hfound
      cases hfound
    rw [Members.get?, Association.get?_insert_of_ne hne]
    exact hfound

theorem insertAllNew_finds {members more after : Members}
    (h : insertAllNew members more = .ok after) :
    Finds members after ∧ ∀ entry ∈ more, after.get? entry.1 = some entry.2 := by
  induction more generalizing members with
  | nil =>
    cases h
    exact ⟨Finds.refl _, by simp⟩
  | cons entry rest ih =>
    obtain ⟨middle, hfirst, hrest⟩ := exists_of_bind_eq_ok h
    obtain ⟨hfinds, hvalue⟩ := insertNew_finds hfirst
    obtain ⟨hlater, hmore⟩ := ih hrest
    exact ⟨hfinds.trans hlater, List.forall_mem_cons.mpr ⟨hlater _ _ hvalue, hmore⟩⟩

/-- The placement is home among hoisted members and other fields. -/
def IsHome (hoisted plain : Members) (home : Placement) : Prop :=
  (∃ inner, home.path = .ofKeys [metadataKey, inner] ∧ hoisted.get? inner = some home.value) ∨
    ∃ name, home.path = .ofKeys [name] ∧ plain.get? name = some home.value

section Expanding

variable {rules : FieldRules} {marker : String}

theorem distribute_homes {props metadata fields hoisted plain : Members}
    (h : rules.distribute marker metadata fields props = .ok (hoisted, plain)) :
    Finds metadata hoisted ∧ Finds fields plain ∧
      ∀ home ∈ rules.homes marker props, IsHome hoisted plain home := by
  induction props generalizing metadata fields with
  | nil =>
    cases h
    exact ⟨Finds.refl _, Finds.refl _, by simp [homes]⟩
  | cons entry rest ih =>
    rcases entry with ⟨key, value⟩
    rw [distribute] at h
    have hsplit : rules.homes marker ((key, value) :: rest) =
        rules.homesOf marker key value ++ rules.homes marker rest := List.flatMap_cons
    rw [hsplit, homesOf]
    cases hhoisted : rules.hoisted? marker key with
    | some inner =>
      rw [hhoisted] at h
      obtain ⟨middle, hfirst, hrest⟩ := exists_of_bind_eq_ok h
      obtain ⟨hfinds, hvalue⟩ := insertNew_finds hfirst
      obtain ⟨hmetadata, hfields, hhomes⟩ := ih hrest
      refine ⟨hfinds.trans hmetadata, hfields, List.forall_mem_cons.mpr ⟨?_, hhomes⟩⟩
      exact Or.inl ⟨inner, rfl, hmetadata _ _ hvalue⟩
    | none =>
      rw [hhoisted] at h
      dsimp only at h ⊢
      cases hopened : rules.opened? key value with
      | some members =>
        rw [hopened] at h
        obtain ⟨middle, hfirst, hrest⟩ := exists_of_bind_eq_ok h
        obtain ⟨hfinds, hmembers⟩ := insertAllNew_finds hfirst
        obtain ⟨hmetadata, hfields, hhomes⟩ := ih hrest
        refine ⟨hmetadata, hfinds.trans hfields, List.forall_mem_append.mpr ⟨?_, hhomes⟩⟩
        intro home hmem
        obtain ⟨member, hmember, rfl⟩ := List.mem_map.mp hmem
        exact Or.inr ⟨member.1, rfl, hfields _ _ (hmembers member hmember)⟩
      | none =>
        rw [hopened] at h
        obtain ⟨middle, hfirst, hrest⟩ := exists_of_bind_eq_ok h
        obtain ⟨hfinds, hvalue⟩ := insertNew_finds hfirst
        obtain ⟨hmetadata, hfields, hhomes⟩ := ih hrest
        refine ⟨hmetadata, hfinds.trans hfields, List.forall_mem_cons.mpr ⟨?_, hhomes⟩⟩
        exact Or.inr ⟨key, rfl, hfields _ _ hvalue⟩

theorem get?_ofKeys_singleton (members : Members) (name : String) :
    (object members).get? (.ofKeys [name]) = members.get? name := by
  have hread : (object members).get? (.ofKeys [name]) =
      (members.get? name).bind (getSteps? []) := getSteps?_key name [] members
  rw [hread]
  cases members.get? name <;> rfl

/-- Every value of the properties is where it should be among the fields. -/
theorem expand_homes {props fields : Members} (h : rules.expand marker props = .ok fields) :
    ∀ home ∈ rules.homes marker props, (object fields).get? home.path = some home.value := by
  obtain ⟨⟨hoisted, plain⟩, hdistribute, hrest⟩ := exists_of_bind_eq_ok h
  obtain ⟨-, -, hhomes⟩ := distribute_homes hdistribute
  intro home hmem
  dsimp only at hrest
  rcases hhomes home hmem with ⟨inner, hpath, hvalue⟩ | ⟨name, hpath, hvalue⟩
  · split at hrest
    · next hempty =>
      rw [List.isEmpty_iff.mp hempty] at hvalue
      cases hvalue
    · obtain ⟨hfinds, -⟩ := insertAllNew_finds hrest
      have hmetadata : Members.get? fields metadataKey = some (object hoisted) :=
        hfinds _ _ (Association.get?_cons_self _ _ _)
      have hread : (object fields).get? home.path =
          (fields.get? metadataKey).bind (getSteps? [.key inner]) := by
        rw [hpath]
        exact getSteps?_key metadataKey [.key inner] fields
      rw [hread, hmetadata, ← hvalue]
      exact get?_ofKeys_singleton hoisted inner
  · rw [hpath, get?_ofKeys_singleton]
    split at hrest
    · cases hrest
      exact hvalue
    · exact (insertAllNew_finds hrest).2 (name, home.value) (Association.mem_of_get?_eq_some hvalue)

end Expanding

end FieldRules

/-! ## Placements that stand -/

namespace Placement

/-- The document has the value at the place, extended at most. -/
def StandsIn (placement : Placement) (document : Json) : Prop :=
  ∃ found, document.get? placement.path = some found ∧ placement.value.ContainedIn found

/-- A null for a whole document, which nobody can tell from a document without any value. -/
def IsVoid (placement : Placement) : Prop := placement.path = .root ∧ placement.value = null

variable {placement : Placement} {document : Json}

theorem standsIn_of_get? {path : FieldPath} {value : Json} (h : document.get? path = some value) :
    StandsIn ⟨path, value⟩ document :=
  ⟨value, h, ContainedIn.refl value⟩

theorem StandsIn.of_extendedBy {later : Json} (h : placement.StandsIn document)
    (hlater : document.ExtendedBy later) : placement.StandsIn later := by
  obtain ⟨found, hfound, hvalue⟩ := h
  obtain ⟨last, hlast, hextends⟩ := hlater.get? hfound
  exact ⟨last, hlast, hvalue.trans_extendedBy hextends⟩

theorem StandsIn.under {inner : Json} {base : FieldPath} (h : placement.StandsIn inner)
    (hbase : document.get? base = some inner) : (placement.under base).StandsIn document := by
  obtain ⟨found, hfound, hvalue⟩ := h
  refine ⟨found, ?_, hvalue⟩
  rw [Placement.under, Json.get?_join, hbase]
  exact hfound

/-- A scalar that stands somewhere is there unchanged. -/
theorem StandsIn.get?_of_isScalar (h : placement.StandsIn document)
    (hscalar : placement.value.IsScalar) :
    document.get? placement.path = some placement.value := by
  obtain ⟨found, hfound, hvalue⟩ := h
  rw [hfound, hvalue.eq_of_isScalar hscalar]

/-- In null nothing stands but a null at its root. -/
theorem StandsIn.ne_null (h : placement.StandsIn document) (hvoid : ¬ placement.IsVoid) :
    document ≠ null := by
  rintro rfl
  obtain ⟨found, hfound, hvalue⟩ := h
  rcases placement with ⟨⟨steps⟩, value⟩
  cases steps with
  | nil =>
    cases hfound
    exact hvoid ⟨rfl, hvalue.eq_null⟩
  | cons step rest => cases step <;> cases hfound

end Placement

/-! ## Deposits -/

/-- A value on its way into a document. -/
structure Deposit where
  before : Json
  path : FieldPath
  value : Json
  /-- Whether the value is laid over what stands at the path. -/
  isLaid : Bool
  /-- The values of the tree's author that come with it, at their places in the document. -/
  shown : List Placement
  deriving Repr, Inhabited

namespace Deposit

/-- The values of the tree's author that deposits show. -/
def shownIn (deposits : List Deposit) : List Placement := deposits.flatMap shown

/-- The deposit is laid over its document and clashes with what stands at the path, above it or
inside it. -/
def Overrules (deposit : Deposit) (path : FieldPath) : Prop :=
  deposit.isLaid ∧ ∃ rest old new, deposit.before.get? (deposit.path.join rest) = some old ∧
    deposit.value.get? rest = some new ∧ old.Clash new ∧
    ¬ Apart (deposit.path.join rest).steps path.steps

/-- The deposit makes a document of the one before: a laid value is merged into it, any other one
extends it, and what the deposit shows stands there. -/
structure Yields (deposit : Deposit) (after : Json) : Prop where
  merged : deposit.isLaid →
    deposit.value.WellFormed ∧ deposit.before.mergeAt deposit.path deposit.value = (.ok (), after)
  grows : ¬ deposit.isLaid → deposit.before ≠ null → deposit.before.ExtendedBy after
  stands : ∀ placement ∈ deposit.shown, placement.StandsIn after

/-- What stands in a document remains when the deposit does not overrule its place. -/
theorem Yields.kept {deposit : Deposit} {after : Json} {placement : Placement}
    (h : deposit.Yields after) (hstands : placement.StandsIn deposit.before)
    (hvoid : ¬ placement.IsVoid) (hover : ¬ deposit.Overrules placement.path) :
    placement.StandsIn after := by
  have hbefore := hstands.ne_null hvoid
  by_cases hlaid : deposit.isLaid
  · obtain ⟨hvalue, hmerge⟩ := h.merged hlaid
    obtain ⟨found, hfound, hcontained⟩ := hstands
    obtain ⟨kept, hkept, hextends⟩ := kept_of_mergeAt hvalue hbefore hmerge
      (fun rest old new hold hnew hclash ↦ by
        by_contra hcomparable
        exact hover ⟨hlaid, rest, old, new, hold, hnew, hclash, hcomparable⟩) hfound
    exact ⟨kept, hkept, hcontained.trans_extendedBy hextends⟩
  · exact hstands.of_extendedBy (h.grows hlaid hbefore)

/-- A value at its place, with what it shows, where the document only grew. -/
theorem yields_of_put {before after value : Json} {place : FieldPath} {shown : List Placement}
    (hgrows : before ≠ null → before.ExtendedBy after) (hfound : after.get? place = some value)
    (hshown : ∀ placement ∈ shown, placement.StandsIn value) :
    Yields ⟨before, place, value, false, shown.map (Placement.under place)⟩ after where
  merged := nofun
  grows := fun _ ↦ hgrows
  stands := List.forall_mem_map.mpr fun placement hmem ↦ (hshown placement hmem).under hfound

/-- A value laid over what stands at its place, with what it shows. -/
theorem yields_of_laid {before after value : Json} {place : FieldPath} {shown : List Placement}
    (hvalue : value.WellFormed) (hmerge : before.mergeAt place value = (.ok (), after))
    (hshown : ∀ placement ∈ shown, placement.StandsIn value) :
    Yields ⟨before, place, value, true, shown.map (Placement.under place)⟩ after where
  merged := fun _ ↦ ⟨hvalue, hmerge⟩
  grows := fun h ↦ absurd rfl h
  stands := by
    refine List.forall_mem_map.mpr fun placement hmem ↦ ?_
    obtain ⟨found, hfound, hcontained⟩ := hshown placement hmem
    exact contained_of_mergeAt hvalue hmerge hfound hcontained

/-- The document holds what the deposits show, but for what a later one overrules and for a null
put for the whole document. -/
def KeptIn (deposits : List Deposit) (document : Json) : Prop :=
  ∀ front deposit back, deposits = front ++ deposit :: back → ∀ placement ∈ deposit.shown,
    placement.StandsIn document ∨ (∃ later ∈ back, later.Overrules placement.path) ∨
      placement.IsVoid

/-- In null everything is void, so any other document does as well. -/
theorem KeptIn.of_null {deposits : List Deposit} (h : KeptIn deposits null) (document : Json) :
    KeptIn deposits document := by
  intro front deposit back hsplit placement hmem
  rcases h front deposit back hsplit placement hmem with hstands | hrest
  · by_cases hvoid : placement.IsVoid
    · exact Or.inr (Or.inr hvoid)
    · exact absurd rfl (hstands.ne_null hvoid)
  · exact Or.inr hrest

end Deposit

/-! ## Chronicles -/

/-- The deposits lead from one document to another, each from the one that its predecessor left. -/
inductive Chronicle : Json → List Deposit → Json → Prop where
  | nil (document : Json) : Chronicle document [] document
  | cons {deposit : Deposit} {rest : List Deposit} {after result : Json}
      (hyields : deposit.Yields after) (hrest : Chronicle after rest result) :
      Chronicle deposit.before (deposit :: rest) result

namespace Chronicle

variable {document middle result : Json} {front back deposits : List Deposit}

theorem single {deposit : Deposit} {after : Json} (h : deposit.Yields after) :
    Chronicle deposit.before [deposit] after :=
  cons h (nil after)

theorem append (hfront : Chronicle document front middle) (hback : Chronicle middle back result) :
    Chronicle document (front ++ back) result := by
  induction hfront with
  | nil document => exact hback
  | cons hyields _ ih => exact cons hyields (ih hback)

/-- A chronicle is cut behind one of its deposits. -/
theorem cut {deposit : Deposit} (h : Chronicle document (front ++ deposit :: back) result) :
    ∃ after, deposit.Yields after ∧ Chronicle after back result := by
  induction front generalizing document with
  | nil =>
    cases h with
    | cons hyields hrest => exact ⟨_, hyields, hrest⟩
  | cons first rest ih =>
    cases h with
    | cons _ hrest => exact ih hrest

/-- What stands at the beginning stands in the end when no deposit overrules its place. -/
theorem kept {placement : Placement} (h : Chronicle document deposits result)
    (hstands : placement.StandsIn document) (hvoid : ¬ placement.IsVoid)
    (hover : ∀ deposit ∈ deposits, ¬ deposit.Overrules placement.path) :
    placement.StandsIn result := by
  induction h with
  | nil document => exact hstands
  | cons hyields _ ih =>
    obtain ⟨hfirst, hlater⟩ := List.forall_mem_cons.mp hover
    exact ih (hyields.kept hstands hvoid hfirst) hlater

theorem keptIn (h : Chronicle document deposits result) : Deposit.KeptIn deposits result := by
  rintro front deposit back rfl placement hmem
  obtain ⟨after, hyields, hback⟩ := h.cut
  by_cases hvoid : placement.IsVoid
  · exact Or.inr (Or.inr hvoid)
  by_cases hover : ∃ later ∈ back, later.Overrules placement.path
  · exact Or.inr (Or.inl hover)
  · push Not at hover
    exact Or.inl (hback.kept (hyields.stands placement hmem) hvoid hover)

/-- Where nothing is laid, a document that is there only grows, and all that is shown stands. -/
theorem grows (h : Chronicle document deposits result)
    (hput : ∀ deposit ∈ deposits, ¬ deposit.isLaid) (hdocument : document ≠ null) :
    document.ExtendedBy result ∧
      ∀ placement ∈ Deposit.shownIn deposits, placement.StandsIn result := by
  induction h with
  | nil document => exact ⟨ExtendedBy.refl document, nofun⟩
  | @cons deposit rest after result hyields _ ih =>
    obtain ⟨hfirst, hlater⟩ := List.forall_mem_cons.mp hput
    have hextends := hyields.grows hfirst hdocument
    obtain ⟨hgrows, hstand⟩ := ih hlater (hextends.ne_null hdocument)
    refine ⟨hextends.trans hgrows, ?_⟩
    rw [Deposit.shownIn, List.flatMap_cons]
    refine List.forall_mem_append.mpr ⟨fun placement hmem ↦ ?_, hstand⟩
    exact (hyields.stands placement hmem).of_extendedBy hgrows

end Chronicle

/-- The deposits make the document out of nothing; where they leave null, an empty object stands for
it. -/
def Deposit.Produce (deposits : List Deposit) (document : Json) : Prop :=
  Chronicle null deposits document ∨ Chronicle null deposits null ∧ document = object []

theorem Deposit.Produce.keptIn {deposits : List Deposit} {document : Json}
    (h : Produce deposits document) : KeptIn deposits document := by
  rcases h with hchronicle | ⟨hchronicle, rfl⟩
  · exact hchronicle.keptIn
  · exact hchronicle.keptIn.of_null _

end ManifestTree
