import ManifestTree.Proofs.Scalars
import Mathlib.Logic.Relation

/-!
# Where the elements of a decomposed tree stem from

Taking a value out leaves every object around it with something less, and moves the objects inside
it unchanged. So whatever the relations are, every element of a decomposed tree is what
decomposition makes of what remains of an object of the document, and different elements stem from
objects at different places; there are no more elements than objects. An object may remain unused,
when it goes with a value that empties it or stays in the properties.
-/

namespace ManifestTree

/-! ## Drawing from a collection -/

section EachFrom

variable {α β γ : Type}

/-- Each of the first comes from one of the second, different ones from different ones. -/
def EachFrom (r : α → β → Prop) (xs : Multiset α) (ys : Multiset β) : Prop :=
  ∃ sources ≤ ys, Multiset.Rel r xs sources

variable {r : α → β → Prop} {xs us : Multiset α} {ys vs : Multiset β}

theorem EachFrom.zero (ys : Multiset β) : EachFrom r 0 ys := ⟨0, Multiset.zero_le ys, .zero⟩

theorem EachFrom.singleton {x : α} {y : β} (h : r x y) : EachFrom r {x} {y} :=
  ⟨{y}, le_rfl, Multiset.rel_cons_left.mpr ⟨y, 0, h, .zero, rfl⟩⟩

theorem EachFrom.add (h : EachFrom r xs ys) (h' : EachFrom r us vs) :
    EachFrom r (xs + us) (ys + vs) := by
  obtain ⟨sources, hle, hrel⟩ := h
  obtain ⟨others, hle', hrel'⟩ := h'
  exact ⟨sources + others, add_le_add hle hle', hrel.add hrel'⟩

theorem EachFrom.mono (h : EachFrom r xs ys) (hle : ys ≤ vs) : EachFrom r xs vs := by
  obtain ⟨sources, hsources, hrel⟩ := h
  exact ⟨sources, hsources.trans hle, hrel⟩

theorem EachFrom.refl {r : α → α → Prop} (hr : ∀ x, r x x) (xs : Multiset α) : EachFrom r xs xs :=
  ⟨xs, le_rfl, Multiset.rel_refl_of_refl_on fun x _ ↦ hr x⟩

theorem rel_comp {s : β → γ → Prop} {t : α → γ → Prop} (ht : ∀ x y z, r x y → s y z → t x z)
    {zs : Multiset γ} (h : Multiset.Rel r xs ys) (h' : Multiset.Rel s ys zs) :
    Multiset.Rel t xs zs := by
  induction h generalizing zs with
  | zero =>
    rw [Multiset.rel_zero_left.mp h']
    exact .zero
  | cons hxy _ ih =>
    obtain ⟨z, rest, hyz, hrest, rfl⟩ := Multiset.rel_cons_left.mp h'
    exact .cons (ht _ _ _ hxy hyz) (ih hrest)

theorem EachFrom.trans {s : β → γ → Prop} {t : α → γ → Prop} {zs : Multiset γ}
    (h : EachFrom r xs ys) (h' : EachFrom s ys zs) (ht : ∀ x y z, r x y → s y z → t x z) :
    EachFrom t xs zs := by
  obtain ⟨sources, hle, hrel⟩ := h
  obtain ⟨others, hle', hrel'⟩ := h'
  obtain ⟨unused, rfl⟩ := Multiset.le_iff_exists_add.mp hle
  obtain ⟨used, rest, hused, -, rfl⟩ := Multiset.rel_add_left.mp hrel'
  exact ⟨used, (Multiset.le_add_right used rest).trans hle', rel_comp ht hrel hused⟩

theorem EachFrom.imp {t : α → β → Prop} (h : EachFrom r xs ys) (ht : ∀ x y, r x y → t x y) :
    EachFrom t xs ys := by
  obtain ⟨sources, hle, hrel⟩ := h
  exact ⟨sources, hle, hrel.mono fun x _ y _ ↦ ht x y⟩

theorem EachFrom.card_le (h : EachFrom r xs ys) : xs.card ≤ ys.card := by
  obtain ⟨sources, hle, hrel⟩ := h
  rw [Multiset.card_eq_card_of_rel hrel]
  exact Multiset.card_le_card hle

end EachFrom

namespace Json

/-! ## Objects -/

def objectItself : Json → Multiset Json
  | object members => {object members}
  | _ => 0

def objects : Json → Multiset Json := gather objectItself

def objectsInside : Json → Multiset Json
  | array items => gatherItems objectItself items
  | object members => gatherMembers objectItself members
  | _ => 0

theorem objects_eq (value : Json) : value.objects = value.objectItself + value.objectsInside := by
  cases value <;> rfl

theorem objectsInside_le_objects (value : Json) : value.objectsInside ≤ value.objects :=
  objects_eq value ▸ Multiset.le_add_left _ _

theorem objectsInside_object_of_get? {members : Members} {name : String} {inner : Json}
    (h : members.get? name = some inner) : (object members).objectsInside =
      inner.objects + (object (members.erase name)).objectsInside :=
  gatherMembers_erase objectItself h

theorem objectsInside_object_insert (members : Members) (name : String) (value : Json) :
    (object (members.insert name value)).objectsInside =
      value.objects + (object (members.erase name)).objectsInside :=
  gatherMembers_insert objectItself members name value

theorem objectsInside_array_of_getElem? {items : List Json} {position : Nat} {inner : Json}
    (h : items[position]? = some inner) : (array items).objectsInside =
      inner.objects + (array (items.eraseIdx position)).objectsInside :=
  gatherItems_eraseIdx objectItself h

theorem objectsInside_array_set {items : List Json} {position : Nat} {inner : Json}
    (h : items[position]? = some inner) (value : Json) :
    (array (items.set position value)).objectsInside =
      value.objects + (array (items.eraseIdx position)).objectsInside :=
  gatherItems_set objectItself h value

/-- One value is what remains of another one when values are taken out of it. -/
def RemainsOf (left value : Json) : Prop :=
  Relation.ReflTransGen (fun whole rest ↦ ∃ path taken, whole.take path = some (taken, rest))
    value left

theorem RemainsOf.refl (value : Json) : value.RemainsOf value := Relation.ReflTransGen.refl

theorem RemainsOf.trans {last left value : Json} (h : last.RemainsOf left)
    (h' : left.RemainsOf value) : last.RemainsOf value := Relation.ReflTransGen.trans h' h

namespace TakesOut

variable {steps : List Step} {value taken left : Json}

theorem remainsOf (h : TakesOut taken steps value left) : left.RemainsOf value :=
  Relation.ReflTransGen.single ⟨⟨steps⟩, taken, takeSteps_eq_some_iff.mpr h⟩

theorem objectItself (h : TakesOut taken steps value left) :
    EachFrom RemainsOf left.objectItself value.objectItself := by
  have hremains := h.remainsOf
  cases h with
  | member _ => exact .singleton hremains
  | emptied _ _ => exact .singleton hremains
  | within _ _ _ => exact .singleton hremains
  | item _ => exact .zero _
  | inside _ _ => exact .zero _

theorem objects_of_objectsInside (h : TakesOut taken steps value left)
    (hinside : EachFrom RemainsOf (taken.objects + left.objectsInside) value.objectsInside) :
    EachFrom RemainsOf (taken.objects + left.objects) value.objects := by
  rw [objects_eq left, objects_eq value, add_left_comm]
  exact h.objectItself.add hinside

/-- The objects taken out and those inside what is left are objects inside the value, some of them
with something less. -/
theorem objectsInside (h : TakesOut taken steps value left) :
    EachFrom RemainsOf (taken.objects + left.objectsInside) value.objectsInside := by
  induction h with
  | member hget =>
    rw [objectsInside_object_of_get? hget]
    exact .refl RemainsOf.refl _
  | @emptied name members rest inner hget _ ih =>
    rw [objectsInside_object_of_get? hget]
    have hinner : EachFrom RemainsOf (taken.objects + 0) inner.objects :=
      ih.mono (objectsInside_le_objects inner)
    rw [add_zero] at hinner
    exact hinner.add (.refl RemainsOf.refl _)
  | within hget hrest _ ih =>
    rw [objectsInside_object_of_get? hget, objectsInside_object_insert, ← add_assoc]
    exact (hrest.objects_of_objectsInside ih).add (.refl RemainsOf.refl _)
  | item hget =>
    rw [objectsInside_array_of_getElem? hget]
    exact .refl RemainsOf.refl _
  | inside hget hrest ih =>
    rw [objectsInside_array_of_getElem? hget, objectsInside_array_set hget, ← add_assoc]
    exact (hrest.objects_of_objectsInside ih).add (.refl RemainsOf.refl _)

end TakesOut

end Json

namespace Json

/-! ## Places of objects -/

def behind (step : Step) (entry : List Step × Json) : List Step × Json :=
  (step :: entry.1, entry.2)

mutual

/-- The objects in a value, with the steps that lead to them. -/
def located : Json → List (List Step × Json)
  | array items => locatedItems 0 items
  | object members => ([], object members) :: locatedMembers members
  | _ => []

/-- The objects in items that start at a position, with the steps that lead to them. -/
def locatedItems (position : Nat) : List Json → List (List Step × Json)
  | [] => []
  | item :: rest => (located item).map (behind (.index position)) ++ locatedItems (position + 1) rest

/-- The objects in member values, with the steps that lead to them. -/
def locatedMembers : List (String × Json) → List (List Step × Json)
  | [] => []
  | (name, value) :: rest => (located value).map (behind (.key name)) ++ locatedMembers rest

end

mutual

theorem coe_map_snd_located : ∀ value : Json,
    ((value.located.map Prod.snd : List Json) : Multiset Json) = value.objects
  | .array items => (coe_map_snd_locatedItems 0 items).trans (zero_add _).symm
  | .object members => by
    rw [located, List.map_cons, ← Multiset.cons_coe, coe_map_snd_locatedMembers members]
    rfl
  | .null => rfl
  | .bool _ => rfl
  | .number _ => rfl
  | .string _ => rfl

theorem coe_map_snd_locatedItems (position : Nat) : ∀ items : List Json,
    (((locatedItems position items).map Prod.snd : List Json) : Multiset Json) =
      gatherItems objectItself items
  | [] => rfl
  | item :: rest => by
    rw [locatedItems, List.map_append, List.map_map, ← Multiset.coe_add,
      coe_map_snd_locatedItems (position + 1) rest, gatherItems]
    exact congrArg (· + _) (coe_map_snd_located item)

theorem coe_map_snd_locatedMembers : ∀ members : List (String × Json),
    (((locatedMembers members).map Prod.snd : List Json) : Multiset Json) =
      gatherMembers objectItself members
  | [] => rfl
  | (name, value) :: rest => by
    rw [locatedMembers, List.map_append, List.map_map, ← Multiset.coe_add,
      coe_map_snd_locatedMembers rest, gatherMembers]
    exact congrArg (· + _) (coe_map_snd_located value)

end

theorem mem_locatedItems {position : Nat} {items : List Json} {entry : List Step × Json}
    (h : entry ∈ locatedItems position items) : ∃ further item rest, items[further]? = some item ∧
      (rest, entry.2) ∈ located item ∧ entry.1 = .index (position + further) :: rest := by
  induction items generalizing position with
  | nil => cases h
  | cons item rest ih =>
    rw [locatedItems, List.mem_append] at h
    rcases h with h | h
    · obtain ⟨inner, hinner, rfl⟩ := List.mem_map.mp h
      exact ⟨0, item, inner.1, rfl, hinner, rfl⟩
    · obtain ⟨further, found, steps, hfound, hsteps, heq⟩ := ih h
      refine ⟨further + 1, found, steps, hfound, hsteps, ?_⟩
      rw [heq, Nat.add_assoc, Nat.add_comm 1]

theorem mem_locatedMembers {members : Members} {entry : List Step × Json}
    (h : entry ∈ locatedMembers members) : ∃ name value rest, (name, value) ∈ members ∧
      (rest, entry.2) ∈ located value ∧ entry.1 = .key name :: rest := by
  induction members with
  | nil => cases h
  | cons member more ih =>
    rcases member with ⟨name, value⟩
    rw [locatedMembers, List.mem_append] at h
    rcases h with h | h
    · obtain ⟨inner, hinner, rfl⟩ := List.mem_map.mp h
      exact ⟨name, value, inner.1, List.mem_cons_self, hinner, rfl⟩
    · obtain ⟨other, found, rest, hmem, hrest, heq⟩ := ih h
      exact ⟨other, found, rest, List.mem_cons_of_mem _ hmem, hrest, heq⟩

/-- What is located somewhere is an object, and is read there. -/
theorem read_of_mem_located {steps : List Step} {value found : Json} (hvalue : value.WellFormed)
    (h : (steps, found) ∈ located value) :
    getSteps? steps value = some found ∧ found.isObject := by
  induction steps generalizing value with
  | nil =>
    cases value with
    | array items =>
      obtain ⟨_, _, _, -, -, heq⟩ := mem_locatedItems h
      cases heq
    | object members =>
      rw [located, List.mem_cons] at h
      rcases h with h | h
      · cases h
        exact ⟨rfl, rfl⟩
      · obtain ⟨_, _, _, -, -, heq⟩ := mem_locatedMembers h
        cases heq
    | _ => cases h
  | cons step rest ih =>
    cases value with
    | array items =>
      obtain ⟨position, item, inner, hitem, hinner, heq⟩ := mem_locatedItems h
      cases heq
      rw [Nat.zero_add, getSteps?_index, hitem]
      exact ih (hvalue.item hitem) hinner
    | object members =>
      rw [located, List.mem_cons] at h
      rcases h with h | h
      · cases h
      · obtain ⟨name, member, inner, hmem, hinner, heq⟩ := mem_locatedMembers h
        cases heq
        have hget : Members.get? members name = some member :=
          Association.get?_eq_some_of_mem hvalue.nodup hmem
        rw [getSteps?_key, hget]
        exact ih (hvalue.member hget) hinner
    | _ => cases h

theorem map_fst_map_behind (step : Step) (entries : List (List Step × Json)) :
    (entries.map (behind step)).map Prod.fst = (entries.map Prod.fst).map (step :: ·) := by
  rw [List.map_map, List.map_map]
  rfl

mutual

theorem nodup_located : ∀ value : Json, value.WellFormed → (value.located.map Prod.fst).Nodup
  | .array items, h => nodup_locatedItems 0 items h
  | .object members, h => by
    rw [located, List.map_cons, List.nodup_cons]
    refine ⟨fun hmem ↦ ?_, nodup_locatedMembers members h.1 h.2⟩
    obtain ⟨entry, hentry, hempty⟩ := List.mem_map.mp hmem
    obtain ⟨_, _, _, -, -, heq⟩ := mem_locatedMembers hentry
    cases hempty.symm.trans heq
  | .null, _ => List.nodup_nil
  | .bool _, _ => List.nodup_nil
  | .number _, _ => List.nodup_nil
  | .string _, _ => List.nodup_nil

theorem nodup_locatedItems (position : Nat) : ∀ items : List Json, ItemsWellFormed items →
    ((locatedItems position items).map Prod.fst).Nodup
  | [], _ => List.nodup_nil
  | item :: rest, h => by
    rw [locatedItems, List.map_append, map_fst_map_behind, List.nodup_append]
    refine ⟨(nodup_located item h.1).map (List.cons_injective),
      nodup_locatedItems (position + 1) rest h.2, ?_⟩
    rintro _ hfront _ hback rfl
    obtain ⟨steps, -, hsteps⟩ := List.mem_map.mp hfront
    obtain ⟨entry, hentry, heq⟩ := List.mem_map.mp hback
    obtain ⟨further, _, _, -, -, hplace⟩ := mem_locatedItems hentry
    rw [hplace, ← hsteps, List.cons.injEq, Step.index.injEq] at heq
    omega

theorem nodup_locatedMembers : ∀ members : List (String × Json), (members.map Prod.fst).Nodup →
    MembersWellFormed members → ((locatedMembers members).map Prod.fst).Nodup
  | [], _, _ => List.nodup_nil
  | (name, value) :: rest, hkeys, h => by
    rw [List.map_cons, List.nodup_cons] at hkeys
    rw [locatedMembers, List.map_append, map_fst_map_behind, List.nodup_append]
    refine ⟨(nodup_located value h.1).map (List.cons_injective),
      nodup_locatedMembers rest hkeys.2 h.2, ?_⟩
    rintro _ hfront _ hback rfl
    obtain ⟨steps, -, hsteps⟩ := List.mem_map.mp hfront
    obtain ⟨entry, hentry, heq⟩ := List.mem_map.mp hback
    obtain ⟨other, _, _, hmem, -, hplace⟩ := mem_locatedMembers hentry
    rw [hplace, ← hsteps, List.cons.injEq, Step.key.injEq] at heq
    exact hkeys.1 (heq.1 ▸ List.mem_map.mpr ⟨_, hmem, rfl⟩)

end

/-- What comes from objects of a value comes from objects at different places. -/
theorem exists_places {α : Type} {r : α → Json → Prop} {xs : Multiset α} {value : Json}
    (h : EachFrom r xs value.objects) (hvalue : value.WellFormed) :
    ∃ places : Multiset FieldPath, places.Nodup ∧
      Multiset.Rel (fun x place ↦ ∃ members, value.get? place = some (object members) ∧
        r x (object members)) xs places := by
  obtain ⟨sources, hle, hrel⟩ := h
  rw [← coe_map_snd_located] at hle
  obtain ⟨sources, rfl⟩ := Quot.exists_rep sources
  obtain ⟨chosen, hperm, hsublist⟩ := hle
  obtain ⟨entries, hentries, rfl⟩ := List.sublist_map_iff.mp hsublist
  have hchosen : Multiset.Rel r xs ((entries : Multiset (List Step × Json)).map Prod.snd) := by
    rw [Multiset.map_coe, Multiset.coe_eq_coe.mpr hperm]
    exact hrel
  have hnodup : ((entries.map Prod.fst).map FieldPath.mk).Nodup :=
    ((nodup_located value hvalue).sublist (hentries.map Prod.fst)).map fun _ _ heq ↦
      (FieldPath.mk.injEq _ _).mp heq
  refine ⟨(entries : Multiset (List Step × Json)).map fun entry ↦ ⟨entry.1⟩, ?_, ?_⟩
  · rw [List.map_map] at hnodup
    exact hnodup
  · refine Multiset.rel_map_right.mpr ((Multiset.rel_map_right.mp hchosen).mono ?_)
    intro x _ entry hentry hr
    obtain ⟨hget, hobject⟩ := read_of_mem_located hvalue (hentries.mem hentry)
    rcases entry with ⟨steps, found⟩
    cases found with
    | object members => exact ⟨members, hget, hr⟩
    | _ => cases hobject

end Json

/-! ## Elements -/

def Outline.elementItself : Outline → Multiset Outline
  | element type props tag children => {element type props tag children}
  | _ => 0

def Outline.elements : Outline → Multiset Outline := gather elementItself

namespace Decompose

open Json

/-- The element is what decomposing makes, under some tag, of what remains of an object. -/
def MadeFrom (schema : Schema) (marker : String) (node : Outline) (value : Json) : Prop :=
  ∃ type tag members, (object members).RemainsOf value ∧
    node = (decompose schema marker type (object members)).root.withTag tag

/-- Elements of one object of the value each, and the elements inside them. -/
def Nested.MakesFrom (nested : Nested) (schema : Schema) (marker : String) (bound : Nat) : Prop :=
  ∀ type tag members, (object members).height ≤ bound →
    EachFrom (MadeFrom schema marker) ((nested type members).1.withTag tag).elements
      (object members).objects

theorem objects_objectsOf {relation : Relation} {taken : Json}
    (h : problem? relation taken = none) :
    gatherItems objectItself ((objectsOf taken).map object) = taken.objects := by
  rcases eq_objects_of_problem? h with harray | ⟨members, rfl, hobjects⟩
  · calc gatherItems objectItself ((objectsOf taken).map object)
        = (array ((objectsOf taken).map object)).objects := (zero_add _).symm
      _ = taken.objects := by rw [← harray]
  · rw [hobjects]
    exact add_zero _

section Elements

variable {schema : Schema} {marker : String} {nested : Nested} {bound : Nat}

theorem elements_madeFrom (hnested : nested.MakesFrom schema marker bound) (type : TypeName)
    (tag : Option String) {objects : List Members}
    (hobjects : ∀ members ∈ objects, (object members).height ≤ bound) :
    EachFrom (MadeFrom schema marker)
      (Outline.gatherAll Outline.elementItself (elements nested type tag objects).1)
      (gatherItems objectItself (objects.map object)) := by
  induction objects with
  | nil => exact .zero _
  | cons members rest ih =>
    rw [List.forall_mem_cons] at hobjects
    rw [elements, List.map_cons, gatherItems]
    exact (hnested type tag members hobjects.1).add (ih hobjects.2)

/-- The children that visiting takes out of an object are made from objects inside it. -/
theorem visitAll_madeFrom (relations : Relations) (hnested : nested.MakesFrom schema marker bound)
    (visiting : List Relation) {members : Members}
    (hmembers : (object members).height ≤ bound + 1) :
    EachFrom (MadeFrom schema marker)
      (Outline.gatherAll Outline.elementItself
        (visitAll relations nested (object members) visiting).1)
      (object members).objectsInside := by
  induction visiting generalizing members with
  | nil => exact .zero _
  | cons relation rest ih =>
    rw [visitAll]
    cases hvisit : visit relation (object members) with
    | nothing => exact ih hmembers
    | kept warning => exact ih hmembers
    | taken objects left =>
      obtain ⟨hleft, hobjects⟩ := height_visit hvisit
      obtain ⟨taken, htakes, rfl, hproblem⟩ := takesOut_of_visit hvisit
      obtain ⟨fields, rfl⟩ := htakes.eq_object
      have hfront := elements_madeFrom hnested relation.child (relations.selector relation)
        fun inner hmem ↦ Nat.le_of_lt_succ (Nat.lt_of_lt_of_le (hobjects inner hmem) hmembers)
      rw [objects_objectsOf hproblem] at hfront
      have hback := ih (Nat.le_trans hleft hmembers)
      dsimp only
      rw [Outline.gatherAll_append]
      refine (hfront.add hback).trans htakes.objectsInside ?_
      rintro node left whole ⟨type, tag, inner, hinner, rfl⟩ hwhole
      exact ⟨type, tag, inner, hinner.trans hwhole, rfl⟩

theorem elements_literals (verbatim : Members) :
    Outline.gatherAll Outline.elementItself (verbatim.map fun (name, value) ↦
      Outline.literal (FieldPath.ofKeys [name]) (some value) false []) = 0 := by
  induction verbatim with
  | nil => rfl
  | cons entry rest ih =>
    rw [List.map_cons, Outline.gatherAll, ih]
    rfl

/-- The elements of what finishing makes are the element itself and those of its children. -/
theorem elements_finish (type : TypeName) (left : Json) (children : List Outline)
    (tag : Option String) : ((finish schema marker type left children).withTag tag).elements =
      {(finish schema marker type left children).withTag tag} +
        Outline.gatherAll Outline.elementItself children := by
  rw [finish, Outline.withTag, Outline.elements, Outline.gather, Outline.gatherAll_append,
    elements_literals, add_zero]
  rfl

theorem root_decompose (type : TypeName) (members : Members) {depth : Nat}
    (hdepth : (object members).height ≤ depth) :
    (decompose schema marker type (object members)).root =
      (element schema marker depth type members).1 := by
  rw [element_eq_of_height_le schema marker hdepth (Nat.le_refl _)]
  rfl

/-- At a depth that is enough, the elements of an object's tree are made from its objects. -/
theorem element_makesFrom (depth : Nat) :
    (element schema marker depth).MakesFrom schema marker depth := by
  induction depth with
  | zero =>
    intro type tag members hmembers
    simp [height] at hmembers
  | succ depth ih =>
    intro type tag members hmembers
    have hself : MadeFrom schema marker
        ((element schema marker (depth + 1) type members).1.withTag tag) (object members) :=
      ⟨type, tag, members, RemainsOf.refl _, by rw [root_decompose type members hmembers]⟩
    have hchildren := visitAll_madeFrom schema.relations ih (schema.relations.under type) hmembers
    rw [element] at hself ⊢
    dsimp only at hself ⊢
    rw [elements_finish, objects_eq]
    exact (EachFrom.singleton hself).add hchildren

/-- An element of the tree of a document stems from one of its objects: it carries the object as it
is, or decomposing makes it of what remains of the object. -/
def StemsFrom (schema : Schema) (marker : String) (node : Outline) (value : Json) : Prop :=
  node = .passthrough value ∨ MadeFrom schema marker node value

theorem elements_decompose (type : TypeName) (members : Members) :
    EachFrom (StemsFrom schema marker)
      (decompose schema marker type (object members)).root.elements (object members).objects := by
  have hroot : (decompose schema marker type (object members)).root.withTag none =
      (decompose schema marker type (object members)).root := rfl
  have helement : EachFrom (MadeFrom schema marker)
      ((decompose schema marker type (object members)).root.withTag none).elements
      (object members).objects := element_makesFrom _ type none members (Nat.le_refl _)
  rw [hroot] at helement
  exact helement.imp fun _ _ ↦ .inr

theorem elements_decomposeDocument (members : Members) :
    EachFrom (StemsFrom schema marker)
      (decomposeDocument schema marker (object members)).root.elements
      (object members).objects := by
  unfold decomposeDocument
  split
  · exact elements_decompose _ members
  · rw [objects_eq]
    exact (EachFrom.singleton (.inl rfl)).mono (Multiset.le_add_right _ _)

end Elements

/-- Decomposing loses and duplicates nothing. The nodes of the tree hold the scalars of the
document, each as often as the document has it, unless a hoisting type has a spec key that begins
with the marker. The elements of the tree of an object stem from objects at different places of it,
so there are no more elements than objects. Both hold for every schema, whether the type is given or
found by the document's fields. -/
theorem decompose_keeps (schema : Schema) (marker : String) {document : Json}
    (hdocument : document.WellFormed) {root : Outline}
    (hroot : root = (decomposeDocument schema marker document).root ∨
      ∃ type, root = (decompose schema marker type document).root) :
    (schema.UnmarkedSpecs marker → root.scalars = document.scalars) ∧
      (document.isObject → root.elements.card ≤ document.objects.card ∧
        ∃ places : Multiset FieldPath, places.Nodup ∧
          Multiset.Rel (fun node place ↦ ∃ members, document.get? place = some (object members) ∧
            StemsFrom schema marker node (object members)) root.elements places) := by
  constructor
  · intro hspecs
    rcases hroot with rfl | ⟨type, rfl⟩
    · exact scalars_decomposeDocument hspecs hdocument
    · exact scalars_decompose hspecs type hdocument
  · intro hobject
    cases document with
    | object members =>
      have hstems : EachFrom (StemsFrom schema marker) root.elements (object members).objects := by
        rcases hroot with rfl | ⟨type, rfl⟩
        · exact elements_decomposeDocument members
        · exact elements_decompose type members
      exact ⟨hstems.card_le, exists_places hstems hdocument⟩
    | _ => cases hobject

/-- A chain of two objects of a type that stands below itself: two scalars, two elements. -/
theorem decompose_keeps_chain :
    let link : TypeName := ⟨"Link"⟩
    let relation : Relation := ⟨link, link, .ofKeys ["next"], false, none⟩
    let relations : Relations := ⟨[(link, [relation])], [((link, link), .only relation)]⟩
    let schema : Schema := ⟨relations, [], default⟩
    let document : Json :=
      .object [("label", .null), ("next", .object [("label", .bool true)])]
    let root := (decompose schema "@" link document).root
    document.WellFormed ∧ schema.UnmarkedSpecs "@" ∧
      root.scalars = {.null, .bool true} ∧ root.elements.card = 2 ∧
      ∃ places : Multiset FieldPath, places.Nodup ∧
        Multiset.Rel (fun node place ↦ ∃ members, document.get? place = some (object members) ∧
          StemsFrom schema "@" node (object members)) root.elements places := by
  intro link relation relations schema document root
  have hdocument : document.WellFormed := by
    simp [document, Json.WellFormed, Json.MembersWellFormed]
  have hspecs : schema.UnmarkedSpecs "@" := by
    intro type key hkey
    cases hkey
  have hroot : root = (decomposeDocument schema "@" document).root ∨
      ∃ type, root = (decompose schema "@" type document).root := .inr ⟨link, rfl⟩
  obtain ⟨hscalars, hstems⟩ := decompose_keeps schema "@" hdocument hroot
  exact ⟨hdocument, hspecs, hscalars hspecs, rfl, (hstems rfl).2⟩

end Decompose

end ManifestTree
