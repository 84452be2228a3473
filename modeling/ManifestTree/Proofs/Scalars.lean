import ManifestTree.Proofs.Depth
import ManifestTree.Proofs.Properties
import ManifestTree.Proofs.RoundTrip
import ManifestTree.Proofs.TakingOut
import Mathlib.Algebra.Order.Group.Multiset

/-!
# Decomposing keeps every scalar

The scalars of a document, counted with multiplicity, are those of what is taken out of it together
with those of what is left, and fields hold the scalars of the properties and verbatim fields that
they become. So the nodes of a decomposed tree hold the scalars of the document, neither more nor
fewer, whatever the relations are and however deep decomposing goes. A spec key that begins with
the marker of a type that hoists is left out: a property there can displace a hoisted one.
-/

namespace ManifestTree

/-! ## Gathering from a value -/

namespace Json

section Gather

variable {β : Type} (own : Json → Multiset β)

mutual

/-- What a value and the values inside it contribute. -/
def gather : Json → Multiset β
  | array items => own (array items) + gatherItems items
  | object members => own (object members) + gatherMembers members
  | value => own value

def gatherItems : List Json → Multiset β
  | [] => 0
  | item :: rest => gather item + gatherItems rest

def gatherMembers : List (String × Json) → Multiset β
  | [] => 0
  | (_, value) :: rest => gather value + gatherMembers rest

end

theorem gatherMembers_perm {members more : Members} (h : members.Perm more) :
    gatherMembers own members = gatherMembers own more := by
  induction h with
  | nil => rfl
  | cons entry _ ih => rw [gatherMembers, gatherMembers, ih]
  | swap entry other rest => simp only [gatherMembers, add_left_comm]
  | trans _ _ ih ih' => exact ih.trans ih'

theorem gatherMembers_append (members more : Members) :
    gatherMembers own (members ++ more) = gatherMembers own members + gatherMembers own more := by
  induction members with
  | nil => simp [gatherMembers]
  | cons entry rest ih => rw [List.cons_append, gatherMembers, gatherMembers, ih, add_assoc]

end Gather

end Json

namespace Association

variable {κ ν : Type} [DecidableEq κ]

/-- The entry that a key finds comes before the others, up to order. -/
theorem perm_cons_erase {key : κ} {value : ν} {entries : Association κ ν}
    (h : get? key entries = some value) : entries.Perm ((key, value) :: erase key entries) := by
  induction entries with
  | nil => cases h
  | cons entry rest ih =>
    rcases entry with ⟨name, old⟩
    by_cases hname : name = key
    · subst hname
      rw [get?_cons_self, Option.some.injEq] at h
      simp [erase, h]
    · rw [get?_cons_of_ne hname] at h
      rw [erase, if_neg hname]
      exact ((ih h).cons _).trans (List.Perm.swap _ _ _)

theorem insert_perm (key : κ) (value : ν) (entries : Association κ ν) :
    (insert key value entries).Perm ((key, value) :: erase key entries) := by
  induction entries with
  | nil => exact List.Perm.refl _
  | cons entry rest ih =>
    rcases entry with ⟨name, old⟩
    by_cases hname : name = key
    · simp [insert, erase, hname]
    · rw [insert, erase, if_neg hname, if_neg hname]
      exact (ih.cons _).trans (List.Perm.swap _ _ _)

end Association

namespace Json

section Gather

variable {β : Type} (own : Json → Multiset β)

theorem gatherMembers_erase {members : Members} {name : String} {inner : Json}
    (h : members.get? name = some inner) :
    gatherMembers own members = gather own inner + gatherMembers own (members.erase name) :=
  gatherMembers_perm own (Association.perm_cons_erase h)

theorem gatherMembers_insert (members : Members) (name : String) (value : Json) :
    gatherMembers own (members.insert name value) =
      gather own value + gatherMembers own (members.erase name) :=
  gatherMembers_perm own (Association.insert_perm name value members)

theorem gatherItems_eraseIdx {items : List Json} {position : Nat} {inner : Json}
    (h : items[position]? = some inner) :
    gatherItems own items = gather own inner + gatherItems own (items.eraseIdx position) := by
  induction items generalizing position with
  | nil => cases h
  | cons item rest ih =>
    cases position with
    | zero =>
      cases h
      rfl
    | succ position =>
      rw [gatherItems, ih h, List.eraseIdx_cons_succ, gatherItems, add_left_comm]

theorem gatherItems_set {items : List Json} {position : Nat} {inner : Json}
    (h : items[position]? = some inner) (value : Json) :
    gatherItems own (items.set position value) =
      gather own value + gatherItems own (items.eraseIdx position) := by
  induction items generalizing position with
  | nil => cases h
  | cons item rest ih =>
    cases position with
    | zero => rfl
    | succ position =>
      rw [List.set_cons_succ, gatherItems, ih h, List.eraseIdx_cons_succ, gatherItems,
        add_left_comm]

/-- What is read in a value contributes to what is gathered from it. -/
theorem own_le_gather {steps : List Step} {value found : Json}
    (h : getSteps? steps value = some found) : own found ≤ gather own value := by
  induction steps generalizing value with
  | nil =>
    cases h
    cases found with
    | array items => exact Multiset.le_add_right _ _
    | object members => exact Multiset.le_add_right _ _
    | _ => exact le_rfl
  | cons step rest ih =>
    cases step with
    | key name =>
      obtain ⟨members, inner, rfl, hinner, hfound⟩ := eq_object_of_getSteps?_key h
      rw [gather, gatherMembers_erase own hinner]
      exact (ih hfound).trans ((Multiset.le_add_right _ _).trans (Multiset.le_add_left _ _))
    | index position =>
      cases value with
      | array items =>
        rw [getSteps?_index, Option.bind_eq_some_iff] at h
        obtain ⟨inner, hinner, hfound⟩ := h
        rw [gather, gatherItems_eraseIdx own hinner]
        exact (ih hfound).trans ((Multiset.le_add_right _ _).trans (Multiset.le_add_left _ _))
      | _ => cases h

end Gather

/-! ## Scalars -/

def scalar : Json → Multiset Json
  | array _ => 0
  | object _ => 0
  | value => {value}

def scalars : Json → Multiset Json := gather scalar

theorem scalars_object (members : Members) :
    (object members).scalars = gatherMembers scalar members := zero_add _

theorem scalars_array (items : List Json) :
    (array items).scalars = gatherItems scalar items := zero_add _

@[simp]
theorem scalars_object_nil : (object []).scalars = 0 := rfl

theorem scalars_object_cons (name : String) (value : Json) (rest : Members) :
    (object ((name, value) :: rest)).scalars = value.scalars + (object rest).scalars := by
  rw [scalars_object, scalars_object, gatherMembers]
  rfl

theorem scalars_object_append (members more : Members) :
    (object (members ++ more)).scalars = (object members).scalars + (object more).scalars := by
  simp only [scalars_object, gatherMembers_append]

/-- The scalars of a value are those of what is taken out and of what is left. -/
theorem TakesOut.scalars {steps : List Step} {value taken left : Json}
    (h : TakesOut taken steps value left) : value.scalars = taken.scalars + left.scalars := by
  induction h with
  | member hget =>
    rw [scalars_object, scalars_object, gatherMembers_erase scalar hget]
    rfl
  | @emptied name members rest inner hget _ ih =>
    rw [scalars_object_nil, add_zero] at ih
    rw [scalars_object, scalars_object, gatherMembers_erase scalar hget, ← ih]
    rfl
  | @within name members rest inner left hget _ _ ih =>
    rw [scalars_object, scalars_object, gatherMembers_erase scalar hget, gatherMembers_insert,
      ← add_assoc]
    exact congrArg (· + _) ih
  | item hget =>
    rw [scalars_array, scalars_array, gatherItems_eraseIdx scalar hget]
    rfl
  | inside hget _ ih =>
    rw [scalars_array, scalars_array, gatherItems_eraseIdx scalar hget, gatherItems_set scalar hget,
      ← add_assoc]
    exact congrArg (· + _) ih

end Json

namespace FieldRules

open Json

variable {rules : FieldRules} {marker : String}

theorem scalars_mark (marker : String) (members : Members) :
    (object (mark marker members)).scalars = (object members).scalars := by
  induction members with
  | nil => rfl
  | cons entry rest ih =>
    rw [scalars_object_cons, ← ih]
    exact scalars_object_cons _ _ _

theorem scalars_plainProps (plain : Members) :
    (object (rules.plainProps plain)).scalars = (object plain).scalars := by
  unfold plainProps
  split
  · split
    · next hempty => rw [List.isEmpty_iff.mp hempty]
    · rw [scalars_object_cons, scalars_object_nil, add_zero]
  · rfl

/-- Every field is hoisted, plain or set aside. -/
theorem scalars_sorted {fields : Members} (hkeys : (fields.map Prod.fst).Nodup) :
    (object fields).scalars = (object (rules.hoistedOf marker fields)).scalars +
      (object (fields.filter (rules.isPlain marker))).scalars +
      (object (fields.filter (rules.isMarked marker))).scalars := by
  induction fields with
  | nil => simp [hoistedOf_of_not_mem]
  | cons entry rest ih =>
    rcases entry with ⟨key, value⟩
    rw [List.map_cons, List.nodup_cons] at hkeys
    have ih := ih hkeys.2
    rw [scalars_object_cons, ih]
    cases hmarked : rules.isMarked marker (key, value) with
    | true =>
      have hplain : rules.isPlain marker (key, value) = false := by simp [isPlain, hmarked]
      rw [hoistedOf_cons_of_isMarked rest hmarked, List.filter_cons_of_pos hmarked,
        List.filter_cons_of_neg (by simp [hplain]), scalars_object_cons]
      exact add_left_comm _ _ _
    | false =>
      have hunmarked : ¬ rules.isMarked marker (key, value) = true := Bool.eq_false_iff.mp hmarked
      rw [List.filter_cons_of_neg hunmarked]
      cases hflattened : rules.flattened? marker key value with
      | none =>
        have hplain : rules.isPlain marker (key, value) = true := by
          simp [isPlain, hmarked, hflattened]
        rw [hoistedOf_cons_of_flattened?_eq_none hkeys.1 hflattened,
          List.filter_cons_of_pos hplain, scalars_object_cons, ← add_assoc, ← add_assoc,
          add_comm value.scalars, add_assoc _ value.scalars]
      | some members =>
        obtain ⟨rfl, -, rfl, -⟩ := flattened?_eq_some hflattened
        have hplain : ¬ rules.isPlain marker (metadataKey, .object members) = true := by
          simp [isPlain, hflattened]
        rw [hoistedOf_cons_of_flattened? rest hmarked hflattened, hoistedOf_of_not_mem hkeys.1,
          List.filter_cons_of_neg hplain, scalars_object_nil, zero_add, ← add_assoc]

/-- Fields have the scalars of the properties and verbatim fields that they become. -/
theorem scalars_contract {fields : Members} (hfields : (object fields).WellFormed)
    (hspec : ∀ key, rules.specKey = some key → rules.hoisted? marker key = none) :
    (object (rules.contract marker fields).props).scalars +
      (object (rules.contract marker fields).verbatim).scalars = (object fields).scalars := by
  rw [contract_eq hfields.nodup (fun members hget ↦ (hfields.member hget).nodup) hspec,
    scalars_sorted hfields.nodup, scalars_object_append, scalars_mark, scalars_plainProps]

end FieldRules

/-! ## Gathering from a tree -/

namespace Outline

section Gather

variable {β : Type} (own : Outline → Multiset β)

mutual

def gather : Outline → Multiset β
  | fragment children => own (fragment children) + gatherAll children
  | element type props tag children => own (element type props tag children) + gatherAll children
  | literal path value isItem children =>
    own (literal path value isItem children) + gatherAll children

/-- What several outlines and those inside them contribute. -/
def gatherAll : List Outline → Multiset β
  | [] => 0
  | outline :: rest => gather outline + gatherAll rest

end

theorem gatherAll_append (outlines more : List Outline) :
    gatherAll own (outlines ++ more) = gatherAll own outlines + gatherAll own more := by
  induction outlines with
  | nil => simp [gatherAll]
  | cons outline rest ih => rw [List.cons_append, gatherAll, gatherAll, ih, add_assoc]

end Gather

/-- The scalars that a node itself holds, in its properties or its value. -/
def held : Outline → Multiset Json
  | element _ props _ _ => (Json.object props).scalars
  | literal _ (some value) _ _ => value.scalars
  | _ => 0

/-- The scalars in the properties and values of all nodes. -/
def scalars : Outline → Multiset Json := gather held

theorem scalars_element (type : TypeName) (props : Members) (tag : Option String)
    (children : List Outline) : (element type props tag children).scalars =
      (Json.object props).scalars + gatherAll held children := rfl

theorem scalars_withTag (tag : Option String) (outline : Outline) :
    (outline.withTag tag).scalars = outline.scalars := by
  cases outline <;> rfl

theorem scalars_passthrough (document : Json) :
    (passthrough document).scalars = document.scalars := by
  cases document <;> simp [passthrough, scalars_element, gatherAll, Json.scalars_object_cons]

end Outline

/-! ## Decomposing -/

/-- Where properties are hoisted, the spec key does not begin with the marker. -/
def Schema.UnmarkedSpecs (schema : Schema) (marker : String) : Prop :=
  ∀ type key, (schema.rulesOf type).specKey = some key →
    (schema.rulesOf type).hoisted? marker key = none

namespace Decompose

open Json

theorem takesOut_of_visit {relation : Relation} {value left : Json} {objects : List Members}
    (h : visit relation value = .taken objects left) :
    ∃ taken, TakesOut taken relation.path.steps value left ∧ objects = objectsOf taken ∧
      problem? relation taken = none := by
  unfold visit at h
  split at h
  · cases h
  · next found hget =>
    split at h
    · cases h
    · split at h
      · cases h
      · next hproblem =>
        split at h
        · cases h
        · next taken _ htake =>
          cases h
          have htakes := takeSteps_eq_some_iff.mp htake
          have hread : some taken = some found := htakes.getSteps?.symm.trans hget
          rw [Option.some.injEq] at hread
          exact ⟨taken, htakes, rfl, hread ▸ hproblem⟩

/-- A value of the right form is one object or an array of objects. -/
theorem eq_objects_of_problem? {relation : Relation} {taken : Json}
    (h : problem? relation taken = none) :
    taken = array ((objectsOf taken).map object) ∨
      ∃ members, taken = object members ∧ objectsOf taken = [members] := by
  unfold problem? at h
  split at h
  · next items _ =>
    split at h
    · next hall => exact .inl (congrArg array (objectsOf_array hall))
    · cases h
  · next members _ => exact .inr ⟨members, rfl, rfl⟩
  · cases h

theorem scalars_objectsOf {relation : Relation} {taken : Json}
    (h : problem? relation taken = none) :
    gatherItems scalar ((objectsOf taken).map object) = taken.scalars := by
  rcases eq_objects_of_problem? h with harray | ⟨members, rfl, hobjects⟩
  · rw [← scalars_array, ← harray]
  · rw [hobjects]
    exact add_zero _

theorem wellFormed_objectsOf {taken : Json} (h : taken.WellFormed) :
    ∀ members ∈ objectsOf taken, (object members).WellFormed := by
  intro members hmem
  cases taken with
  | object found =>
    rw [List.mem_singleton.mp hmem]
    exact h
  | array items =>
    obtain ⟨item, hitem, hobject⟩ := List.mem_filterMap.mp hmem
    cases item with
    | object found =>
      cases hobject
      exact itemsWellFormed_iff.mp h _ hitem
    | _ => cases hobject
  | _ => cases hmem

/-- The element of an object has the scalars of the object. -/
def Nested.KeepsScalars (nested : Nested) : Prop :=
  ∀ type members, (object members).WellFormed →
    (nested type members).1.scalars = (object members).scalars

theorem scalars_elements {nested : Nested} (hnested : nested.KeepsScalars) (type : TypeName)
    (tag : Option String) {objects : List Members}
    (hobjects : ∀ members ∈ objects, (object members).WellFormed) :
    Outline.gatherAll Outline.held (elements nested type tag objects).1 =
      gatherItems scalar (objects.map object) := by
  induction objects with
  | nil => rfl
  | cons members rest ih =>
    rw [List.forall_mem_cons] at hobjects
    rw [elements, List.map_cons, gatherItems, ← ih hobjects.2]
    exact congrArg (· + _) ((Outline.scalars_withTag tag _).trans (hnested type members hobjects.1))

/-- Visiting an object divides its scalars between the children and what is left. -/
theorem scalars_visitAll (relations : Relations) {nested : Nested} (hnested : nested.KeepsScalars)
    (visiting : List Relation) {members : Members} (hmembers : (object members).WellFormed) :
    ∃ left, (visitAll relations nested (object members) visiting).2.1 = object left ∧
      (object left).WellFormed ∧
      Outline.gatherAll Outline.held (visitAll relations nested (object members) visiting).1 +
        (object left).scalars = (object members).scalars := by
  induction visiting generalizing members with
  | nil => exact ⟨members, rfl, hmembers, zero_add _⟩
  | cons relation rest ih =>
    rw [visitAll]
    cases hvisit : visit relation (object members) with
    | nothing => exact ih hmembers
    | kept warning => exact ih hmembers
    | taken objects left =>
      obtain ⟨taken, htakes, rfl, hproblem⟩ := takesOut_of_visit hvisit
      obtain ⟨fields, rfl⟩ := htakes.eq_object
      obtain ⟨htaken, hfields⟩ := htakes.wellFormed hmembers
      obtain ⟨last, hlast, hwf, hscalars⟩ := ih hfields
      refine ⟨last, hlast, hwf, ?_⟩
      have hfront := scalars_elements hnested relation.child (relations.selector relation)
        (wellFormed_objectsOf htaken)
      rw [scalars_objectsOf hproblem] at hfront
      dsimp only
      rw [Outline.gatherAll_append, add_assoc, hscalars, hfront]
      exact htakes.scalars.symm

theorem scalars_literals (verbatim : Members) :
    Outline.gatherAll Outline.held (verbatim.map fun (name, value) ↦
      Outline.literal (FieldPath.ofKeys [name]) (some value) false []) =
      (object verbatim).scalars := by
  induction verbatim with
  | nil => rfl
  | cons entry rest ih =>
    rcases entry with ⟨name, value⟩
    rw [List.map_cons, Outline.gatherAll, ih, scalars_object_cons]
    exact congrArg (· + _) (add_zero value.scalars)

section Element

variable {schema : Schema} {marker : String}

variable (hspecs : schema.UnmarkedSpecs marker)

include hspecs

theorem scalars_finish (type : TypeName) {left : Members} (hleft : (object left).WellFormed)
    (children : List Outline) : (finish schema marker type (object left) children).scalars =
      Outline.gatherAll Outline.held children + (object left).scalars := by
  rw [finish, Outline.scalars_element, Outline.gatherAll_append, scalars_literals, add_left_comm]
  exact congrArg (_ + ·) (FieldRules.scalars_contract hleft (hspecs type))

/-- At every depth an element has the scalars of its object. -/
theorem element_keepsScalars (depth : Nat) : (element schema marker depth).KeepsScalars := by
  induction depth with
  | zero =>
    intro type members hmembers
    exact (scalars_finish hspecs type hmembers []).trans (zero_add _)
  | succ depth ih =>
    intro type members hmembers
    obtain ⟨left, hleft, hwf, hscalars⟩ :=
      scalars_visitAll schema.relations ih (schema.relations.under type) hmembers
    rw [element]
    dsimp only
    rw [hleft, scalars_finish hspecs type hwf]
    exact hscalars

theorem scalars_decompose (type : TypeName) {document : Json} (hdocument : document.WellFormed) :
    (decompose schema marker type document).root.scalars = document.scalars := by
  unfold decompose
  split
  · next members => exact element_keepsScalars hspecs _ type members hdocument
  · exact Outline.scalars_passthrough _

theorem scalars_decomposeDocument {document : Json} (hdocument : document.WellFormed) :
    (decomposeDocument schema marker document).root.scalars = document.scalars := by
  unfold decomposeDocument
  split
  · exact scalars_decompose hspecs _ hdocument
  · exact Outline.scalars_passthrough document

end Element

end Decompose

end ManifestTree
