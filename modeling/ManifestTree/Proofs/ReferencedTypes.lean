import ManifestTree.Decompose

/-!
# The types that a decomposition refers to

Decomposing gathers the type of every object that it makes an element of, in the order in which it
comes to them, and reports each type once, in ascending order. These are the types of the elements
of the tree, for every schema and every document. The type of elements that carry a document as it
is stands apart: such an element is made of a document at hand, not met on the way, and has nothing
below it.
-/

namespace ManifestTree

/-! ## Each name once -/

namespace TypeName

theorem mem_insertSorted (name : TypeName) (names : List TypeName) (other : TypeName) :
    other ∈ insertSorted name names ↔ other = name ∨ other ∈ names := by
  induction names with
  | nil => simp [insertSorted]
  | cons first rest ih =>
    rw [insertSorted]
    split
    · next heq => simp [heq]
    · split
      · simp
      · rw [List.mem_cons, List.mem_cons, ih]
        exact or_left_comm

def Ascending (names : List TypeName) : Prop :=
  names.Pairwise fun name other ↦ name.text < other.text

theorem Ascending.insertSorted {names : List TypeName} (h : Ascending names) (name : TypeName) :
    Ascending (insertSorted name names) := by
  induction names with
  | nil => exact List.pairwise_singleton _ _
  | cons first rest ih =>
    obtain ⟨hfirst, hrest⟩ := List.pairwise_cons.mp h
    rw [TypeName.insertSorted]
    split
    · exact h
    · next hne =>
      split
      · next hlt =>
        refine List.pairwise_cons.mpr ⟨List.forall_mem_cons.mpr ⟨hlt, fun other hother ↦ ?_⟩, h⟩
        exact String.lt_trans hlt (hfirst other hother)
      · next hnotlt =>
        have hgt : first.text < name.text := by
          refine String.not_le.mp fun hle ↦ hne ?_
          exact congrArg TypeName.mk (String.le_antisymm hle (String.not_lt.mp hnotlt))
        refine List.pairwise_cons.mpr ⟨fun other hother ↦ ?_, ih hrest⟩
        rcases (mem_insertSorted name rest other).mp hother with rfl | hmem
        · exact hgt
        · exact hfirst other hmem

theorem Ascending.nodup {names : List TypeName} (h : Ascending names) : names.Nodup := by
  refine List.Pairwise.imp ?_ h
  rintro name _ hlt rfl
  exact String.lt_irrefl _ hlt

/-- Sorting keeps the names and puts each of them once, in ascending order. -/
theorem sorted_spec (names : List TypeName) :
    Ascending (sorted names) ∧ ∀ name, name ∈ sorted names ↔ name ∈ names := by
  have hfold (done : List TypeName) (hdone : Ascending done) :
      Ascending (names.foldl (fun done name ↦ insertSorted name done) done) ∧
        ∀ name, name ∈ names.foldl (fun done name ↦ insertSorted name done) done ↔
          name ∈ done ∨ name ∈ names := by
    induction names generalizing done with
    | nil => exact ⟨hdone, by simp⟩
    | cons first rest ih =>
      obtain ⟨hascending, hmem⟩ := ih _ (hdone.insertSorted first)
      refine ⟨hascending, fun name ↦ ?_⟩
      rw [List.foldl_cons, hmem, mem_insertSorted, List.mem_cons, or_assoc, or_left_comm]
  obtain ⟨hascending, hmem⟩ := hfold [] List.Pairwise.nil
  exact ⟨hascending, fun name ↦ (hmem name).trans (by simp)⟩

end TypeName

/-! ## Types of a tree -/

namespace Outline

mutual

/-- The types of the elements of a tree, depth first, without elements that carry a document as it
is. -/
def types : Outline → List TypeName
  | fragment children => typesOfAll children
  | element type _ _ children =>
    (if type = TypeName.passthrough then [] else [type]) ++ typesOfAll children
  | literal _ _ _ children => typesOfAll children

def typesOfAll : List Outline → List TypeName
  | [] => []
  | outline :: rest => outline.types ++ typesOfAll rest

end

mutual

/-- There are no fragments, and nothing is below an element that carries a document as it is. -/
def Unwrapped : Outline → Prop
  | fragment _ => False
  | element type _ _ children =>
    (type = TypeName.passthrough → children = []) ∧ AllUnwrapped children
  | literal _ _ _ children => AllUnwrapped children

def AllUnwrapped : List Outline → Prop
  | [] => True
  | outline :: rest => outline.Unwrapped ∧ AllUnwrapped rest

end

theorem typesOfAll_append (front back : List Outline) :
    typesOfAll (front ++ back) = typesOfAll front ++ typesOfAll back := by
  induction front with
  | nil => rfl
  | cons outline rest ih => rw [List.cons_append, typesOfAll, typesOfAll, ih, List.append_assoc]

theorem mem_typesOfAll {outlines : List Outline} {type : TypeName} :
    type ∈ typesOfAll outlines ↔ ∃ outline ∈ outlines, type ∈ outline.types := by
  induction outlines with
  | nil => simp [typesOfAll]
  | cons outline rest ih => simp [typesOfAll, ih]

theorem allUnwrapped_iff {outlines : List Outline} :
    AllUnwrapped outlines ↔ ∀ outline ∈ outlines, outline.Unwrapped := by
  induction outlines with
  | nil => simp [AllUnwrapped]
  | cons outline rest ih => rw [AllUnwrapped, ih, List.forall_mem_cons]

theorem types_withTag (tag : Option String) (outline : Outline) :
    (outline.withTag tag).types = outline.types := by
  cases outline <;> rfl

theorem unwrapped_withTag (tag : Option String) (outline : Outline) :
    (outline.withTag tag).Unwrapped ↔ outline.Unwrapped := by
  cases outline <;> exact Iff.rfl

theorem types_passthrough (document : Json) : (passthrough document).types = [] := by
  cases document <;> rfl

theorem unwrapped_passthrough (document : Json) : (passthrough document).Unwrapped := by
  cases document <;> exact ⟨fun _ ↦ rfl, trivial⟩

end Outline

/-! ## Decomposing -/

namespace Decompose

open Outline

/-- The tree has exactly the elements whose types were met, in the same order. -/
def HasTypes (types : List TypeName) (outlines : List Outline) : Prop :=
  TypeName.passthrough ∉ types → AllUnwrapped outlines ∧ typesOfAll outlines = types

theorem HasTypes.append {types more : List TypeName} {outlines others : List Outline}
    (h : HasTypes types outlines) (h' : HasTypes more others) :
    HasTypes (types ++ more) (outlines ++ others) := by
  intro hspared
  rw [List.mem_append, not_or] at hspared
  obtain ⟨hunwrapped, htypes⟩ := h hspared.1
  obtain ⟨hunwrapped', htypes'⟩ := h' hspared.2
  refine ⟨allUnwrapped_iff.mpr ?_, by rw [typesOfAll_append, htypes, htypes']⟩
  exact List.forall_mem_append.mpr
    ⟨allUnwrapped_iff.mp hunwrapped, allUnwrapped_iff.mp hunwrapped'⟩

theorem hasTypes_nil : HasTypes [] [] := fun _ ↦ ⟨trivial, rfl⟩

theorem hasTypes_literals (fields : Members) : HasTypes [] (fields.map fun (name, value) ↦
    Outline.literal (FieldPath.ofKeys [name]) (some value) false []) := by
  intro _
  induction fields with
  | nil => exact ⟨trivial, rfl⟩
  | cons field rest ih => exact ⟨⟨trivial, ih.1⟩, ih.2⟩

section Elements

variable {schema : Schema} {marker : String}

theorem HasTypes.finish {types : List TypeName} {children : List Outline}
    (h : HasTypes types children) (type : TypeName) (left : Json) :
    HasTypes (type :: types) [Decompose.finish schema marker type left children] := by
  intro hspared
  obtain ⟨htype, hbelow⟩ := not_or.mp (mt List.mem_cons.mpr hspared)
  have hchildren := h.append (hasTypes_literals ((schema.rulesOf type).contract marker
    left.members).verbatim)
  rw [List.append_nil] at hchildren
  obtain ⟨hunwrapped, htypes⟩ := hchildren hbelow
  refine ⟨⟨⟨fun heq ↦ absurd heq.symm htype, hunwrapped⟩, trivial⟩, ?_⟩
  rw [typesOfAll, typesOfAll, List.append_nil, Decompose.finish, Outline.types,
    if_neg (Ne.symm htype), htypes]
  rfl

/-- An element of one object meets the types of its tree. -/
def Nested.ReportsTypes (nested : Nested) : Prop :=
  ∀ type members, Decompose.HasTypes (nested type members).2.types [(nested type members).1]

theorem hasTypes_withTag {types : List TypeName} {outline : Outline} (h : HasTypes types [outline])
    (tag : Option String) : HasTypes types [outline.withTag tag] := by
  intro hspared
  obtain ⟨⟨hunwrapped, -⟩, htypes⟩ := h hspared
  refine ⟨⟨(unwrapped_withTag tag outline).mpr hunwrapped, trivial⟩, ?_⟩
  rw [typesOfAll, types_withTag]
  exact htypes

theorem hasTypes_elements {nested : Nested} (hnested : nested.ReportsTypes) (type : TypeName)
    (tag : Option String) (objects : List Members) :
    HasTypes (elements nested type tag objects).2.types (elements nested type tag objects).1 := by
  induction objects with
  | nil => exact hasTypes_nil
  | cons members rest ih => exact (hasTypes_withTag (hnested type members) tag).append ih

theorem hasTypes_visitAll {nested : Nested} (hnested : nested.ReportsTypes) (relations : Relations)
    (value : Json) (visiting : List Relation) :
    HasTypes (visitAll relations nested value visiting).2.2.types
      (visitAll relations nested value visiting).1 := by
  induction visiting generalizing value with
  | nil => exact hasTypes_nil
  | cons relation rest ih =>
    rw [visitAll]
    cases visit relation value with
    | nothing => exact ih value
    | kept warning => exact ih value
    | taken objects left =>
      exact (hasTypes_elements hnested relation.child (relations.selector relation) objects).append
        (ih left)

/-- Whatever the depth, the types that are met are those of the tree. -/
theorem hasTypes_element (depth : Nat) : (element schema marker depth).ReportsTypes := by
  induction depth with
  | zero => exact fun type members ↦ hasTypes_nil.finish type (.object members)
  | succ depth ih =>
    exact fun type members ↦
      (hasTypes_visitAll ih schema.relations (.object members) (schema.relations.under type)).finish
        type _

end Elements

/-- A decomposition of a document of a given type, or of the type that its fields name. -/
def Made (result : Decomposition) : Prop :=
  ∃ schema marker document, (∃ type, result = decompose schema marker type document) ∨
    result = decomposeDocument schema marker document

theorem types_decompose {schema : Schema} {marker : String} {type : TypeName} {document : Json}
    (h : TypeName.passthrough ∉ (decompose schema marker type document).types) :
    (decompose schema marker type document).root.Unwrapped ∧
      ∀ name, name ∈ (decompose schema marker type document).types ↔
        name ∈ (decompose schema marker type document).root.types := by
  cases document with
  | object members =>
    rw [decompose] at h ⊢
    dsimp only at h ⊢
    have hsorted := (TypeName.sorted_spec (element schema marker (Json.object members).height type
      members).2.types).2
    obtain ⟨⟨hunwrapped, -⟩, htypes⟩ :=
      hasTypes_element (Json.object members).height type members (mt (hsorted _).mpr h)
    rw [typesOfAll, typesOfAll, List.append_nil] at htypes
    exact ⟨hunwrapped, fun name ↦ by rw [hsorted, htypes]⟩
  | _ => exact ⟨⟨fun _ ↦ rfl, trivial⟩, fun name ↦ Iff.rfl⟩

/-- A decomposition refers to the types of the elements of its tree. -/
theorem Made.types {result : Decomposition} (h : Made result)
    (hspared : TypeName.passthrough ∉ result.types) :
    result.root.Unwrapped ∧ ∀ name, name ∈ result.types ↔ name ∈ result.root.types := by
  obtain ⟨schema, marker, document, ⟨type, rfl⟩ | rfl⟩ := h
  · exact types_decompose hspared
  · rw [decomposeDocument] at hspared ⊢
    cases hidentify : schema.types.identify document with
    | ok type =>
      rw [hidentify] at hspared
      exact types_decompose hspared
    | error unknown =>
      exact ⟨unwrapped_passthrough document, fun name ↦ by rw [types_passthrough]⟩

end Decompose

end ManifestTree
