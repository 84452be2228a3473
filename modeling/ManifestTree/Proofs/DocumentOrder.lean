import ManifestTree.Proofs.Depth
import ManifestTree.Proofs.KeyOrder
import ManifestTree.Proofs.Properties
import ManifestTree.Proofs.TakingOut

/-!
# Decomposing does not read the order of keys

Two documents that are equal up to the order of keys decompose into trees that have the same
elements in the same order, with properties equal up to the order of keys and the same verbatim
literals in some order; the types met and the warnings are the same. What drives the decomposition
is the order of the relations. Documents with a repeated key are left out: which of its entries a
relation finds depends on their order.
-/

namespace ManifestTree

open Json
open List (Forall₂)

/-! ## Taking out -/

namespace Json

/-- What is taken out of matching values matches, and so does what is left. -/
theorem TakesOut.exists_matches {steps : List Step} {value other taken left : Json}
    (h : TakesOut taken steps value left) (hvalue : value.Matches other) :
    ∃ found rest, TakesOut found steps other rest ∧ taken.Matches found ∧ left.Matches rest := by
  induction h generalizing other with
  | @member name members hget =>
    obtain ⟨more, rfl, hmembers⟩ := hvalue.eq_object
    obtain ⟨found, hfound, hmatches⟩ := (hmembers.member name).exists_right hget
    exact ⟨found, _, .member hfound, hmatches, hmembers.erase name⟩
  | @emptied name members rest inner hget _ ih =>
    obtain ⟨more, rfl, hmembers⟩ := hvalue.eq_object
    obtain ⟨within, hwithin, hinner⟩ := (hmembers.member name).exists_right hget
    obtain ⟨found, left, htakes, htaken, hleft⟩ := ih hinner
    cases hleft.eq_of_isLeaf rfl
    exact ⟨found, _, .emptied hwithin htakes, htaken, hmembers.erase name⟩
  | @within name members rest inner left hget _ hne ih =>
    obtain ⟨more, rfl, hmembers⟩ := hvalue.eq_object
    obtain ⟨within, hwithin, hinner⟩ := (hmembers.member name).exists_right hget
    obtain ⟨found, less, htakes, htaken, hleft⟩ := ih hinner
    refine ⟨found, _, .within hwithin htakes ?_, htaken, hmembers.insert hleft name⟩
    rintro rfl
    exact hne (hleft.symm.eq_of_isLeaf rfl).symm
  | @item position items hget =>
    obtain ⟨more, rfl, hitems⟩ := hvalue.eq_array
    obtain ⟨found, hfound, hmatches⟩ := (matches_getElem? hitems position).exists_right hget
    exact ⟨found, _, .item hfound, hmatches,
      matches_array_iff.mpr (matches_eraseIdx hitems position)⟩
  | @inside position items rest inner left hget _ ih =>
    obtain ⟨more, rfl, hitems⟩ := hvalue.eq_array
    obtain ⟨within, hwithin, hinner⟩ := (matches_getElem? hitems position).exists_right hget
    obtain ⟨found, less, htakes, htaken, hleft⟩ := ih hinner
    exact ⟨found, _, .inside hwithin htakes, htaken,
      matches_array_iff.mpr (matches_set hitems hleft position)⟩

/-- Taking finds something in both values or in neither. -/
theorem Matches.take {value other : Json} (h : value.Matches other) (path : FieldPath) :
    Option.Rel (fun x y ↦ x.1.Matches y.1 ∧ x.2.Matches y.2) (value.take path)
      (other.take path) := by
  unfold Json.take
  rcases htake : takeSteps path.steps value with _ | ⟨taken, left⟩
  · rcases hother : takeSteps path.steps other with _ | ⟨found, rest⟩
    · exact .none
    · obtain ⟨_, _, htakes, -⟩ := (takeSteps_eq_some_iff.mp hother).exists_matches h.symm
      rw [takeSteps_eq_some_iff.mpr htakes] at htake
      cases htake
  · obtain ⟨found, rest, htakes, hmatches⟩ := (takeSteps_eq_some_iff.mp htake).exists_matches h
    rw [takeSteps_eq_some_iff.mpr htakes]
    exact .some hmatches

end Json

/-! ## Contracting -/

/-- What is found among members behind which others were inserted. -/
theorem Members.get?_extend {more : Members} (hmore : (more.map Prod.fst).Nodup)
    (members : Members) (key : String) :
    (members.extend more).get? key = (more.get? key).or (members.get? key) := by
  induction more generalizing members with
  | nil => rfl
  | cons entry rest ih =>
    rcases entry with ⟨name, value⟩
    rw [List.map_cons, List.nodup_cons] at hmore
    rw [extend, ih hmore.2]
    by_cases hname : name = key
    · subst hname
      have hrest : Association.get? name rest = none := Association.get?_eq_none_iff.mpr hmore.1
      simp [get?, insert, hrest]
    · simp only [get?, insert, Association.get?_insert_of_ne hname,
        Association.get?_cons_of_ne hname]

theorem Members.nodup_extend {members : Members} (h : (members.map Prod.fst).Nodup)
    (more : Members) : ((members.extend more).map Prod.fst).Nodup := by
  induction more generalizing members with
  | nil => exact h
  | cons entry rest ih => exact ih (Association.nodup_map_fst_insert _ _ h)

namespace FieldRules

variable {rules : FieldRules} {marker : String}

theorem get?_mark (marker name : String) (members : Members) :
    Members.get? (mark marker members) (marker ++ name) = members.get? name := by
  induction members with
  | nil => rfl
  | cons entry rest ih =>
    rcases entry with ⟨key, value⟩
    have hcons : mark marker ((key, value) :: rest) = (marker ++ key, value) :: mark marker rest :=
      rfl
    rw [hcons, Members.get?, Members.get?, Association.get?_cons, Association.get?_cons]
    by_cases hname : key = name
    · rw [if_pos hname, if_pos (congrArg _ hname)]
    · rw [if_neg hname, if_neg fun heq ↦ hname (marked_injective marker heq)]
      exact ih

section Matches

variable {xs ys : Members}

theorem matches_mark (h : (object xs).Matches (object ys)) (marker : String) :
    (object (mark marker xs)).Matches (object (mark marker ys)) := by
  refine matches_object_iff.mpr ⟨?_, ?_, fun key ↦ ?_⟩
  · rw [map_fst_mark]
    exact h.left.nodup.map (marked_injective marker)
  · rw [map_fst_mark]
    exact h.right.nodup.map (marked_injective marker)
  · by_cases hkey : ∃ name, marker ++ name = key
    · obtain ⟨name, rfl⟩ := hkey
      rw [get?_mark, get?_mark]
      exact h.member name
    · have hnone (members : Members) : Members.get? (mark marker members) key = none := by
        refine Association.get?_eq_none_iff.mpr fun hmem ↦ hkey ?_
        rw [map_fst_mark] at hmem
        obtain ⟨name, -, heq⟩ := List.mem_map.mp hmem
        exact ⟨name, heq⟩
      rw [hnone, hnone]
      exact .none

theorem matches_extend {us vs : Members} (h : (object xs).Matches (object ys))
    (hmore : (object us).Matches (object vs)) :
    (object (xs.extend us)).Matches (object (ys.extend vs)) := by
  refine matches_object_iff.mpr ⟨Members.nodup_extend h.left.nodup us,
    Members.nodup_extend h.right.nodup vs, fun key ↦ ?_⟩
  rw [Members.get?_extend hmore.left.nodup, Members.get?_extend hmore.right.nodup]
  exact (hmore.member key).or (h.member key)

/-- Members kept by a test that does not tell matching values apart. -/
theorem matches_filter (keep : String × Json → Bool) (h : (object xs).Matches (object ys))
    (hkeep : ∀ key x y, Matches x y → keep (key, x) = keep (key, y)) :
    (object (xs.filter keep)).Matches (object (ys.filter keep)) := by
  refine matches_object_iff.mpr ⟨h.left.nodup.sublist (List.filter_sublist.map _),
    h.right.nodup.sublist (List.filter_sublist.map _), fun key ↦ ?_⟩
  rw [Members.get?, Members.get?, Association.get?_filter key keep h.left.nodup,
    Association.get?_filter key keep h.right.nodup]
  exact (h.member key).filter fun value found ↦ hkeep key value found

/-- The members that a field gives back when it is flattened match, if there are any. -/
theorem matches_flattened? {x y : Json} (h : x.Matches y) (key : String) :
    Option.Rel (fun us vs ↦ (object us).Matches (object vs)) (rules.flattened? marker key x)
      (rules.flattened? marker key y) := by
  rcases h.cases with ⟨_, _, rfl, rfl, -⟩ | ⟨us, vs, rfl, rfl, -⟩ | ⟨rfl, hscalar⟩
  · exact .none
  · have hempty : us.isEmpty = vs.isEmpty := h.isLeaf_eq
    rw [flattened?, flattened?, hempty]
    split
    · exact .some h
    · exact .none
  · cases x with
    | array _ => exact hscalar.elim
    | object _ => exact hscalar.elim
    | _ => exact .none

theorem matches_hoistedOf (h : (object xs).Matches (object ys)) :
    (object (rules.hoistedOf marker xs)).Matches (object (rules.hoistedOf marker ys)) := by
  have hempty : (object []).Matches (object []) := .refl ⟨List.nodup_nil, trivial⟩
  unfold hoistedOf
  split
  · exact hempty
  · exact ((h.member metadataKey).bind fun _ _ hvalue ↦
      matches_flattened? hvalue metadataKey).getD hempty

/-- Fields that match contract into properties and verbatim fields that match. -/
theorem matches_contract (rules : FieldRules) (marker : String)
    (h : (object xs).Matches (object ys)) :
    (object (rules.contract marker xs).props).Matches
        (object (rules.contract marker ys).props) ∧
      (object (rules.contract marker xs).verbatim).Matches
        (object (rules.contract marker ys).verbatim) := by
  have hmarked := matches_mark (@matches_hoistedOf rules marker _ _ h) marker
  have hplain := matches_filter (rules.isPlain marker) h fun key x y hvalue ↦ by
    have hflattened := @matches_flattened? rules marker _ _ hvalue key
    simp only [isPlain, isMarked, hflattened.isNone_eq]
  have hverbatim := matches_filter (rules.isMarked marker) h fun _ _ _ _ ↦ rfl
  rw [contract_eq_sorted h.left.nodup fun _ hget ↦ (h.left.member hget).nodup,
    contract_eq_sorted h.right.nodup fun _ hget ↦ (h.right.member hget).nodup]
  refine ⟨?_, hverbatim⟩
  dsimp only
  split
  · next key _ =>
    have hempty : (xs.filter (rules.isPlain marker)).isEmpty =
        (ys.filter (rules.isPlain marker)).isEmpty := hplain.isLeaf_eq
    rw [hempty]
    split
    · exact hmarked
    · exact hmarked.insert hplain key
  · exact matches_extend hmarked hplain

end Matches

end FieldRules

/-! ## Trees that read the same -/

/-- The literal of a field that no property can stand for. -/
def Outline.verbatim (field : String × Json) : Outline :=
  .literal (.ofKeys [field.1]) (some field.2) false []

/-- Elements of one type and one tag whose properties are equal up to the order of keys, whose
children read the same one by one, and which have the same verbatim literals in some order. -/
inductive Outline.ReadsSame : Outline → Outline → Prop where
  /-- Two elements, each with its child elements before its verbatim literals. -/
  | element {type : TypeName} {tag : Option String} {props others fields rest : Members}
      {children more : List Outline} (hprops : (object props).Alike (object others))
      (hchildren : Forall₂ ReadsSame children more)
      (hfields : (object fields).Alike (object rest)) :
      ReadsSame (.element type props tag (children ++ fields.map verbatim))
        (.element type others tag (more ++ rest.map verbatim))

theorem Outline.ReadsSame.withTag {outline other : Outline} (h : outline.ReadsSame other)
    (tag : Option String) : (outline.withTag tag).ReadsSame (other.withTag tag) := by
  cases h with
  | element hprops hchildren hfields => exact .element hprops hchildren hfields

namespace Decompose

/-! ## Visits -/

abbrev ObjectsMatch (objects others : List Members) : Prop :=
  Forall₂ (fun members more ↦ (object members).Matches (object more)) objects others

theorem matches_objectsOf {value other : Json} (h : value.Matches other) :
    ObjectsMatch (objectsOf value) (objectsOf other) := by
  rcases h.cases with ⟨xs, ys, rfl, rfl, hitems⟩ | ⟨_, _, rfl, rfl, -⟩ | ⟨rfl, hscalar⟩
  · refine List.rel_filterMap (fun x y hitem ↦ ?_) hitems
    rcases hitem.cases with ⟨_, _, rfl, rfl, -⟩ | ⟨_, _, rfl, rfl, -⟩ | ⟨rfl, hscalar⟩
    · exact .none
    · exact .some hitem
    · cases x with
      | object _ => exact hscalar.elim
      | _ => exact .none
  · exact .cons h .nil
  · cases value with
    | array _ => exact hscalar.elim
    | object _ => exact hscalar.elim
    | _ => exact .nil

theorem problem?_eq {found other : Json} (relation : Relation) (h : found.Matches other) :
    problem? relation found = problem? relation other := by
  unfold problem?
  rcases h.cases with ⟨xs, ys, rfl, rfl, hitems⟩ | ⟨_, _, rfl, rfl, -⟩ | ⟨rfl, -⟩
  · have hall : xs.all Json.isObject = ys.all Json.isObject := by
      induction hitems with
      | nil => rfl
      | cons hitem hrest ih =>
        rw [List.all_cons, List.all_cons, hitem.isObject_eq, ih (matches_array_iff.mpr hrest)]
    cases relation.isMany with
    | true =>
      dsimp only
      rw [hall]
    | false => rfl
  · cases relation.isMany <;> rfl
  · rfl

/-- Two visits with the same report, or with matching objects taken and matching values left. -/
inductive Visit.Matches : Visit → Visit → Prop where
  | nothing : Matches .nothing .nothing
  | kept (warning : Failure) : Matches (.kept warning) (.kept warning)
  | taken {objects others : List Members} {left rest : Json}
      (hobjects : ObjectsMatch objects others) (hleft : left.Matches rest) :
      Matches (.taken objects left) (.taken others rest)

/-- A relation's visits to matching values come to the same. -/
theorem visit_matches {value other : Json} (relation : Relation) (h : value.Matches other) :
    Visit.Matches (visit relation value) (visit relation other) := by
  unfold visit
  have hget := h.get? relation.path
  cases hfirst : value.get? relation.path with
  | none =>
    rw [hget.eq_none_iff.mp hfirst]
    exact .nothing
  | some found =>
    obtain ⟨twin, hsecond, hmatches⟩ := hget.exists_right hfirst
    rw [hsecond]
    dsimp only
    rw [hmatches.isVacant_eq, problem?_eq relation hmatches]
    split
    · exact .nothing
    · split
      · exact .kept _
      · have htake := h.take relation.path
        cases hfirst : value.take relation.path with
        | none =>
          rw [htake.eq_none_iff.mp hfirst]
          exact .nothing
        | some pair =>
          obtain ⟨taken, left⟩ := pair
          obtain ⟨⟨twin, rest⟩, hsecond, htaken, hleft⟩ := htake.exists_right hfirst
          rw [hsecond]
          exact .taken (matches_objectsOf htaken) hleft

/-! ## Whole documents -/

/-- How objects below are decomposed does not read the order of their keys. -/
def Nested.ReadsSame (nested : Nested) : Prop :=
  ∀ type members others, (object members).Matches (object others) →
    (nested type members).1.ReadsSame (nested type others).1 ∧
      (nested type members).2 = (nested type others).2

theorem elements_readSame {nested : Nested} (hnested : nested.ReadsSame) (type : TypeName)
    (tag : Option String) {objects others : List Members} (h : ObjectsMatch objects others) :
    Forall₂ Outline.ReadsSame (elements nested type tag objects).1
        (elements nested type tag others).1 ∧
      (elements nested type tag objects).2 = (elements nested type tag others).2 := by
  induction h with
  | nil => exact ⟨.nil, rfl⟩
  | cons hmembers _ ih =>
    obtain ⟨houtline, hmet⟩ := hnested type _ _ hmembers
    simp only [elements]
    exact ⟨.cons (houtline.withTag tag) ih.1, by rw [hmet, ih.2]⟩

theorem visitAll_readsSame (relations : Relations) {nested : Nested} (hnested : nested.ReadsSame)
    (visiting : List Relation) {value other : Json} (h : value.Matches other) :
    Forall₂ Outline.ReadsSame (visitAll relations nested value visiting).1
        (visitAll relations nested other visiting).1 ∧
      (visitAll relations nested value visiting).2.1.Matches
        (visitAll relations nested other visiting).2.1 ∧
      (visitAll relations nested value visiting).2.2 =
        (visitAll relations nested other visiting).2.2 := by
  induction visiting generalizing value other with
  | nil => exact ⟨.nil, h, rfl⟩
  | cons relation rest ih =>
    have hvisit := visit_matches relation h
    rw [visitAll, visitAll]
    revert hvisit
    generalize visit relation value = first
    generalize visit relation other = second
    intro hvisit
    cases hvisit with
    | nothing => exact ih h
    | kept warning =>
      obtain ⟨hchildren, hleft, hfindings⟩ := ih h
      exact ⟨hchildren, hleft, congrArg (Findings.append ⟨[], [warning]⟩) hfindings⟩
    | taken hobjects hleft =>
      obtain ⟨hfront, hmet⟩ := elements_readSame hnested relation.child
        (relations.selector relation) hobjects
      obtain ⟨hchildren, hrest, hfindings⟩ := ih hleft
      exact ⟨List.rel_append hfront hchildren, hrest, congrArg₂ Findings.append hmet hfindings⟩

/-- The element of what is left of matching objects reads the same. -/
theorem finish_readsSame (schema : Schema) (marker : String) (type : TypeName)
    {left rest : Json} (hleft : left.Matches rest) {children others : List Outline}
    (hchildren : Forall₂ Outline.ReadsSame children others) :
    (finish schema marker type left children).ReadsSame
      (finish schema marker type rest others) := by
  obtain ⟨hprops, hverbatim⟩ :=
    FieldRules.matches_contract (schema.rulesOf type) marker hleft.members
  exact .element hprops.alike hchildren hverbatim.alike

theorem element_readsSame (schema : Schema) (marker : String) (depth : Nat) :
    Nested.ReadsSame (element schema marker depth) := by
  induction depth with
  | zero => exact fun type _ _ h ↦ ⟨finish_readsSame schema marker type h .nil, rfl⟩
  | succ depth ih =>
    intro type members others h
    obtain ⟨hchildren, hleft, hfindings⟩ :=
      visitAll_readsSame schema.relations ih (schema.relations.under type) h
    simp only [element]
    exact ⟨finish_readsSame schema marker type hleft hchildren, congrArg _ hfindings⟩

/-- Trees that read the same, of the same types and with the same warnings in the same order. -/
structure Decomposition.ReadsSame (first second : Decomposition) : Prop where
  root : first.root.ReadsSame second.root
  types : first.types = second.types
  warnings : first.warnings = second.warnings

theorem passthrough_readsSame {document other : Json} (h : document.Matches other) :
    (Outline.passthrough document).ReadsSame (Outline.passthrough other) := by
  have hempty : (object []).Alike (object []) := ⟨.nil, trivial⟩
  have helement {props others : Members} (hprops : (object props).Matches (object others)) :
      (Outline.element TypeName.passthrough props none []).ReadsSame
        (.element TypeName.passthrough others none []) :=
    Outline.ReadsSame.element hprops.alike .nil hempty
  have hvalue : (object [("value", document)]).Matches (object [("value", other)]) :=
    (Matches.refl (x := object []) ⟨List.nodup_nil, trivial⟩).insert h "value"
  rcases h.cases with ⟨_, _, rfl, rfl, -⟩ | ⟨_, _, rfl, rfl, -⟩ | ⟨rfl, hscalar⟩
  · exact helement hvalue
  · exact helement h
  · cases document with
    | object _ => exact hscalar.elim
    | _ => exact helement hvalue

theorem decompose_matches (schema : Schema) (marker : String) (type : TypeName)
    {document other : Json} (h : document.Matches other) :
    Decomposition.ReadsSame (decompose schema marker type document)
      (decompose schema marker type other) := by
  rcases h.cases with ⟨_, _, rfl, rfl, -⟩ | ⟨xs, ys, rfl, rfl, -⟩ | ⟨rfl, hscalar⟩
  · exact ⟨passthrough_readsSame h, rfl, rfl⟩
  · let depth := max (object xs).height (object ys).height
    obtain ⟨hroot, hfindings⟩ := element_readsSame schema marker depth type xs ys h
    have hfirst := @element_eq_of_height_le schema marker _ depth type xs (Nat.le_refl _)
      (Nat.le_max_left _ _)
    have hsecond := @element_eq_of_height_le schema marker _ depth type ys (Nat.le_refl _)
      (Nat.le_max_right _ _)
    simp only [decompose, hfirst, hsecond]
    exact ⟨hroot, by rw [hfindings], by rw [hfindings]⟩
  · cases document with
    | object _ => exact hscalar.elim
    | _ => exact ⟨passthrough_readsSame h, rfl, rfl⟩

theorem identify_eq (types : TypeIndex) {document other : Json} (h : document.Matches other) :
    types.identify document = types.identify other := by
  have htext (name : String) :
      TypeIndex.textField document name = TypeIndex.textField other name := by
    unfold TypeIndex.textField
    have hfield := h.members.member name
    cases hfirst : document.members.get? name with
    | none => rw [hfield.eq_none_iff.mp hfirst]
    | some value =>
      obtain ⟨found, hsecond, hvalue⟩ := hfield.exists_right hfirst
      rw [hsecond]
      rcases hvalue.cases with ⟨_, _, rfl, rfl, -⟩ | ⟨_, _, rfl, rfl, -⟩ | ⟨rfl, -⟩ <;> rfl
  rw [TypeIndex.identify, TypeIndex.identify, htext, htext]

/-- A document of a type that its fields name is decomposed the same way whatever their order. -/
theorem decomposeDocument_readsSame (schema : Schema) (marker : String) {document other : Json}
    (h : document.Matches other) :
    Decomposition.ReadsSame (decomposeDocument schema marker document)
      (decomposeDocument schema marker other) := by
  unfold decomposeDocument
  rw [identify_eq schema.types h]
  split
  · exact decompose_matches schema marker _ h
  · exact ⟨passthrough_readsSame h, rfl, rfl⟩

/-- Decomposing reads a document, not the order of its keys. Two documents without repeated keys
that are equal up to the order of keys at every level decompose, as values of any type, into trees
that have the same elements in the same order under the same types and tags, with properties equal
up to the order of keys and the same verbatim literals in some order; the types are the same, and so
are the warnings and their order. -/
theorem decompose_readsSame (schema : Schema) (marker : String) (type : TypeName)
    {document other : Json} (hdocument : document.WellFormed) (hother : other.WellFormed)
    (halike : document.Alike other) :
    Decomposition.ReadsSame (decompose schema marker type document)
      (decompose schema marker type other) :=
  decompose_matches schema marker type ⟨hdocument, hother, halike⟩

/-- A pod with a name, a container and a volume of the wrong form, read in two orders. -/
theorem decompose_readsSame_two_orders :
    let pod : TypeName := ⟨"Pod"⟩
    let container : Relation := ⟨⟨"Container"⟩, pod, .ofKeys ["spec", "containers"], true, none⟩
    let volume : Relation := ⟨⟨"Volume"⟩, pod, .ofKeys ["spec", "volumes"], true, none⟩
    let relations : Relations := ⟨[(pod, [container, volume])],
      [((pod, container.child), .only container), ((pod, volume.child), .only volume)]⟩
    let schema : Schema := ⟨relations, [(pod, ⟨true, none⟩)], default⟩
    let name : String × Json := ("name", .string "web")
    let labels : String × Json := ("labels", .object [])
    let containers : String × Json := ("containers", .array [.object [name, labels]])
    let twins : String × Json := ("containers", .array [.object [labels, name]])
    let volumes : String × Json := ("volumes", .bool true)
    let document : Json :=
      .object [("metadata", .object [name, labels]), ("spec", .object [containers, volumes])]
    let other : Json :=
      .object [("spec", .object [volumes, twins]), ("metadata", .object [labels, name])]
    document.WellFormed ∧ other.WellFormed ∧ document.Alike other ∧
      (decompose schema "@" pod document).root =
        .element pod [("@name", .string "web"), ("@labels", .object []),
            ("spec", .object [volumes])] none
          [.element container.child [name, labels] none []] ∧
      (decompose schema "@" pod document).warnings = [retainedAs pod volume .boolean] ∧
      Decomposition.ReadsSame (decompose schema "@" pod document)
        (decompose schema "@" pod other) := by
  intro pod container volume relations schema name labels containers twins volumes document other
  have hdocument : document.WellFormed := by
    simp [document, containers, volumes, name, labels, Json.WellFormed, MembersWellFormed,
      ItemsWellFormed]
  have hother : other.WellFormed := by
    simp [other, twins, volumes, name, labels, Json.WellFormed, MembersWellFormed,
      ItemsWellFormed]
  have hinner : (object [name, labels]).Alike (object [labels, name]) :=
    ⟨.swap _ _ _, ⟨_, rfl, rfl⟩, ⟨_, rfl, .nil, trivial⟩, trivial⟩
  have hspec : (object [containers, volumes]).Alike (object [volumes, twins]) :=
    ⟨.swap _ _ _, ⟨_, rfl, hinner, trivial⟩, ⟨_, rfl, rfl⟩, trivial⟩
  have halike : document.Alike other :=
    ⟨.swap _ _ _, ⟨_, rfl, hinner⟩, ⟨_, rfl, hspec⟩, trivial⟩
  exact ⟨hdocument, hother, halike, rfl, rfl,
    decompose_readsSame schema "@" pod hdocument hother halike⟩

end Decompose
end ManifestTree
