import ManifestTree.Proofs.ArrivalOrder
import ManifestTree.Proofs.Placement
import ManifestTree.Proofs.RoundTrip

/-!
# Composed documents survive decomposing

What an element composes to is an object without a repeated key, whatever the element holds, as long
as it has no transforms. Hence it decomposes, as a value of the element's type, into an element that
composes to it again, under the conditions on the schema that decomposing needs. The conditions are
not superfluous: relations are visited in the order of declaration while an author may fill their
places in any order, so whether a document survives can depend on the order of the declarations.
-/

namespace ManifestTree

open Json

/-! ## Nodes without repeated keys -/

mutual

/-- No object in the properties and literals has a repeated key, in the components as they render
with these supplies. -/
def Node.WellFormed (supplies : Supplies) : Node → Prop
  | .fragment children => Node.AllWellFormed supplies children
  | .element _ props _ children =>
    (object props).WellFormed ∧ Node.AllWellFormed supplies children
  | .literal _ value _ children =>
    (∀ written, value = some written → written.WellFormed) ∧ Node.AllWellFormed supplies children
  | .transform _ children => Node.AllWellFormed supplies children
  | .component _ script => script.WellFormed supplies

def Node.AllWellFormed (supplies : Supplies) : List Node → Prop
  | [] => True
  | node :: rest => node.WellFormed supplies ∧ Node.AllWellFormed supplies rest

/-- No object in the tree that the script yields, if any, has a repeated key. -/
def Script.WellFormed (supplies : Supplies) : Script → Prop
  | .yield node => node.WellFormed supplies
  | .suspend => True
  | .read handle next => (next (supplies.value? handle)).WellFormed supplies
  | .require _ _ next => next.WellFormed supplies

end

/-! ## Fields -/

/-- A computation in two parts answers when both do. -/
theorem exists_of_bind_eq_ok {α β : Type} {part : Except Failure α} {next : α → Except Failure β}
    {answer : β} (h : part >>= next = .ok answer) :
    ∃ first, part = .ok first ∧ next first = .ok answer := by
  cases part with
  | error failure => cases h
  | ok first => exact ⟨first, rfl, h⟩

namespace FieldRules

variable {rules : FieldRules} {marker : String}

theorem insertNew_wellFormed {members after : Members} {key : String} {value : Json}
    (h : insertNew members key value = .ok after) (hmembers : (object members).WellFormed)
    (hvalue : value.WellFormed) : (object after).WellFormed := by
  unfold insertNew at h
  split at h
  · cases h
  · next hfree =>
    cases h
    have hget : members.get? key = none := by simpa [Members.has] using hfree
    have hkey : key ∉ members.map Prod.fst := Association.get?_eq_none_iff.mp hget
    rw [← Association.insert_of_not_mem value hkey]
    exact hmembers.insert hvalue key

theorem insertAllNew_wellFormed {members more after : Members}
    (h : insertAllNew members more = .ok after) (hmembers : (object members).WellFormed)
    (hmore : MembersWellFormed more) : (object after).WellFormed := by
  induction more generalizing members with
  | nil =>
    cases h
    exact hmembers
  | cons entry rest ih =>
    rcases entry with ⟨key, value⟩
    rw [insertAllNew] at h
    obtain ⟨middle, hfirst, hrest⟩ := exists_of_bind_eq_ok h
    exact ih hrest (insertNew_wellFormed hfirst hmembers hmore.1) hmore.2

theorem opened?_eq_some {key : String} {value : Json} {members : Members}
    (h : rules.opened? key value = some members) : value = object members := by
  unfold opened? at h
  split at h
  · split at h
    · cases h
      rfl
    · cases h
  · cases h

theorem distribute_wellFormed {props metadata fields hoisted plain : Members}
    (h : rules.distribute marker metadata fields props = .ok (hoisted, plain))
    (hmetadata : (object metadata).WellFormed) (hfields : (object fields).WellFormed)
    (hprops : MembersWellFormed props) :
    (object hoisted).WellFormed ∧ (object plain).WellFormed := by
  induction props generalizing metadata fields with
  | nil =>
    cases h
    exact ⟨hmetadata, hfields⟩
  | cons entry rest ih =>
    rcases entry with ⟨key, value⟩
    rw [distribute] at h
    split at h
    · obtain ⟨middle, hfirst, hrest⟩ := exists_of_bind_eq_ok h
      exact ih hrest (insertNew_wellFormed hfirst hmetadata hprops.1) hfields hprops.2
    · split at h
      · next members hopened =>
        have hvalue := hprops.1
        rw [opened?_eq_some hopened] at hvalue
        obtain ⟨middle, hfirst, hrest⟩ := exists_of_bind_eq_ok h
        exact ih hrest hmetadata (insertAllNew_wellFormed hfirst hfields hvalue.2) hprops.2
      · obtain ⟨middle, hfirst, hrest⟩ := exists_of_bind_eq_ok h
        exact ih hrest hmetadata (insertNew_wellFormed hfirst hfields hprops.1) hprops.2

/-- Properties expand into fields without a repeated key. -/
theorem expand_wellFormed {props fields : Members} (h : rules.expand marker props = .ok fields)
    (hprops : (object props).WellFormed) : (object fields).WellFormed := by
  have hempty : (object []).WellFormed := ⟨List.nodup_nil, trivial⟩
  rw [expand] at h
  obtain ⟨⟨hoisted, plain⟩, hdistribute, hrest⟩ := exists_of_bind_eq_ok h
  obtain ⟨hhoisted, hplain⟩ := distribute_wellFormed hdistribute hempty hempty hprops.2
  dsimp only at hrest
  split at hrest
  · cases hrest
    exact hplain
  · have hfront : (object [(metadataKey, object hoisted)]).WellFormed :=
      ⟨List.nodup_singleton _, hhoisted, trivial⟩
    exact insertAllNew_wellFormed hrest hfront hplain.2

end FieldRules

/-! ## Writers -/

namespace Json

/-- Where the action succeeds, it leaves no repeated key behind. -/
def Action.KeepsWellFormed {α : Type} (action : Action α) : Prop :=
  ∀ place answer after, Place.WellFormed place → action place = (.ok answer, after) →
    Place.WellFormed after

theorem Place.WellFormed.getD {place : Place} (h : place.WellFormed) :
    (place.getD null).WellFormed := by
  cases place with
  | none => trivial
  | some value => exact h value rfl

theorem Place.wellFormed_some {value : Json} (h : value.WellFormed) :
    Place.WellFormed (some value) := by
  intro other heq
  cases heq
  exact h

theorem fill_keepsWellFormed (path : FieldPath) {value : Json} (h : value.WellFormed) :
    (fill path value).KeepsWellFormed := by
  intro place answer after _ hfill
  obtain ⟨-, rfl⟩ := fill_eq_ok hfill
  exact Place.wellFormed_some h

theorem addItem_keepsWellFormed (path : FieldPath) {value : Json} (h : value.WellFormed) :
    (addItem path value).KeepsWellFormed := by
  intro place answer after hplace hadd
  obtain ⟨items, hitems, -, rfl⟩ := addItem_eq_ok hadd
  have hitem : (array [value]).WellFormed := ⟨h, trivial⟩
  apply Place.wellFormed_some
  rcases hitems with ⟨-, rfl⟩ | rfl
  · exact hitem
  · exact (hplace _ rfl).append hitem

/-- A walk through a well-formed value leaves one. -/
theorem walk_wellFormed {α : Type} {path : FieldPath} {action : Action α}
    (hkeeps : action.KeepsWellFormed) {taken steps : List Step} {place after : Place} {answer : α}
    (hplace : place.WellFormed) (h : walk path action taken steps place = (.ok answer, after)) :
    after.WellFormed := by
  induction steps generalizing taken place after with
  | nil =>
    rw [walk] at h
    exact hkeeps place answer after hplace h
  | cons step rest ih =>
    cases step with
    | key name =>
      cases place with
      | none =>
        rw [walk] at h
        rcases hwalk : walk path action (taken ++ [.key name]) rest none with ⟨outcome, below⟩
        rw [hwalk] at h
        cases h
        have hbelow := ih Place.wellFormed_none hwalk
        exact Place.wellFormed_some ⟨List.nodup_singleton name, hbelow.getD, trivial⟩
      | some old =>
        cases old with
        | object members =>
          rw [walk] at h
          rcases hwalk : walk path action (taken ++ [.key name]) rest (Members.get? members name)
            with ⟨outcome, below⟩
          rw [hwalk] at h
          cases h
          have hobject : (object members).WellFormed := hplace _ rfl
          have hbelow := ih (fun value hget ↦ hobject.member hget) hwalk
          exact Place.wellFormed_some (hobject.insert hbelow.getD name)
        | _ => cases h
    | index position =>
      cases place with
      | none => cases h
      | some old =>
        cases old with
        | array items =>
          rw [walk] at h
          cases hitem : items[position]? with
          | none =>
            rw [hitem] at h
            cases h
          | some item =>
            rcases hwalk : walk path action (taken ++ [.index position]) rest (some item)
              with ⟨outcome, below⟩
            simp only [hitem, hwalk] at h
            cases h
            have harray : (array items).WellFormed := hplace _ rfl
            have hbelow := ih (Place.wellFormed_some (harray.item hitem)) hwalk
            refine Place.wellFormed_some (itemsWellFormed_iff.mpr fun other hother ↦ ?_)
            rcases List.mem_or_eq_of_mem_set hother with hold | rfl
            · exact itemsWellFormed_iff.mp harray other hold
            · exact hbelow.getD
        | _ => cases h

theorem write_wellFormed {α : Type} {document after : Json} {path : FieldPath} {action : Action α}
    {answer : α} (hkeeps : action.KeepsWellFormed) (hdocument : document.WellFormed)
    (h : document.write path action = (.ok answer, after)) : after.WellFormed := by
  have hplace : Place.WellFormed (Place.ofDocument document) := by
    intro value hvalue
    cases document <;> cases hvalue <;> exact hdocument
  rcases hwalk : walk path action [] path.steps (Place.ofDocument document)
    with ⟨outcome, below⟩
  simp only [write, hwalk] at h
  cases h
  exact (walk_wellFormed hkeeps hplace hwalk).getD

theorem set_wellFormed {document after value : Json} {path : FieldPath} {answer : Unit}
    (hdocument : document.WellFormed) (hvalue : value.WellFormed)
    (h : document.set path value = (.ok answer, after)) : after.WellFormed :=
  write_wellFormed (fill_keepsWellFormed path hvalue) hdocument h

theorem append_wellFormed {document after value : Json} {path : FieldPath} {answer : Nat}
    (hdocument : document.WellFormed) (hvalue : value.WellFormed)
    (h : document.append path value = (.ok answer, after)) : after.WellFormed :=
  write_wellFormed (addItem_keepsWellFormed path hvalue) hdocument h

end Json

/-- The document is an object in which no object has a repeated key. -/
def Json.WellFormedObject (document : Json) : Prop :=
  ∃ members, document = object members ∧ (object members).WellFormed

/-! ## Parts of a pass -/

namespace Weaving

variable {α β : Type}

/-- Whenever the part answers, the answer has the property. -/
def Answers (property : α → Prop) (part : Weaving α) : Prop :=
  ∀ log answer after, exec part log = (.ok answer, after) → property answer

theorem Answers.pure {property : α → Prop} {answer : α} (h : property answer) :
    Answers property (Pure.pure answer) := by
  intro log other after hexec
  cases hexec
  exact h

theorem Answers.bind {property : α → Prop} {goal : β → Prop} {part : Weaving α}
    {next : α → Weaving β} (h : Answers property part)
    (hnext : ∀ answer, property answer → Answers goal (next answer)) :
    Answers goal (part >>= next) := by
  intro log answer after hexec
  obtain ⟨first, middle, hpart, hrest⟩ := exec_bind_eq_ok_iff.mp hexec
  exact hnext first (h log first middle hpart) middle answer after hrest

theorem Answers.settleWith (outcome : Except Failure α) :
    Answers (fun answer ↦ outcome = .ok answer) (Compose.settleWith outcome) := by
  intro log answer after hexec
  rw [exec_settleWith] at hexec
  exact congrArg Prod.fst hexec

theorem Answers.written (outcome : Except Failure α × Json) :
    Answers (fun answer ↦ outcome = (.ok answer.1, answer.2)) (Compose.written outcome) := by
  rintro log ⟨answer, document⟩ after hexec
  exact (Compose.exec_written_eq_ok hexec).1

theorem Answers.and {property other : α → Prop} {part : Weaving α} (h : Answers property part)
    (hother : Answers other part) : Answers (fun answer ↦ property answer ∧ other answer) part :=
  fun log answer after hexec ↦ ⟨h log answer after hexec, hother log answer after hexec⟩

theorem Answers.note (change : PassLog → PassLog) :
    Answers (fun _ ↦ True) (Compose.note change) := fun _ _ _ _ ↦ trivial

end Weaving

namespace Compose

open Weaving

theorem putElement_answers {relation : Relation} {base : FieldPath} {document value : Json}
    (hdocument : document.WellFormed) (hvalue : value.WellFormed) :
    Answers Json.WellFormed (putElement (some relation) base document value) := by
  unfold putElement
  dsimp only
  split
  · refine (Answers.written _).bind fun answer happend ↦ Answers.pure ?_
    exact append_wellFormed hdocument hvalue happend
  · refine (Answers.written _).bind fun answer hset ↦ Answers.pure ?_
    exact set_wellFormed hdocument hvalue hset

theorem putLiteral_answers {base path : FieldPath} {value : Option Json} {isItem : Bool}
    {document : Json} (hdocument : document.WellFormed)
    (hvalue : ∀ written, value = some written → written.WellFormed) :
    Answers (fun answer ↦ answer.2.WellFormed) (putLiteral base path value isItem document) := by
  unfold putLiteral
  dsimp only
  split
  · refine (Answers.written _).bind fun answer happend ↦ Answers.pure ?_
    refine append_wellFormed hdocument ?_ happend
    cases value with
    | none => exact ⟨List.nodup_nil, trivial⟩
    | some written => exact hvalue written rfl
  · split
    · next written =>
      refine (Answers.written _).bind fun answer hset ↦ Answers.pure ?_
      exact set_wellFormed hdocument (hvalue written rfl) hset
    · exact Answers.pure hdocument

section Weave

variable {context : Context}

mutual

/-- Inside an element, no node leaves a repeated key behind. -/
theorem weave_answers : ∀ node : Node, node.WellFormed context.supplies →
    node.TransformFree context.supplies → ∀ (enclosing : List TypeName) (base : FieldPath)
    {document : Json}, enclosing ≠ [] → document.WellFormed →
    Answers Json.WellFormed (weave context enclosing base document node)
  | .fragment children, hwf, hfree, enclosing, base, document, henclosing, hdocument => by
    rw [weave]
    exact weaveAll_answers children hwf hfree enclosing base henclosing hdocument
  | .element type props tag children, hwf, hfree, enclosing, base, document, henclosing,
      hdocument => by
    rw [weave]
    refine (Answers.settleWith _).bind fun relation hlocate ↦ ?_
    obtain ⟨found, rfl⟩ := locate_eq_some henclosing hlocate
    refine (Answers.settleWith _).bind fun fields hexpand ↦ ?_
    have hfields := FieldRules.expand_wellFormed hexpand hwf.1
    refine (weaveAll_answers children hwf.2 hfree (enclosing ++ [type]) .root (by simp)
      hfields).bind fun value hvalue ↦ ?_
    exact putElement_answers hdocument hvalue
  | .literal path value isItem children, hwf, hfree, enclosing, base, document, henclosing,
      hdocument => by
    rw [weave]
    refine (putLiteral_answers hdocument hwf.1).bind fun ⟨inner, document⟩ hinner ↦ ?_
    exact weaveAll_answers children hwf.2 hfree enclosing inner henclosing hinner
  | .transform _ _, _, hfree, _, _, _, _, _ => hfree.elim
  | .component name script, hwf, hfree, enclosing, base, document, henclosing, hdocument => by
    rw [weave]
    refine (Answers.note _).bind fun _ _ ↦ ?_
    exact weaveScript_answers name script hwf hfree enclosing base henclosing hdocument

theorem weaveAll_answers : ∀ nodes : List Node, Node.AllWellFormed context.supplies nodes →
    Node.AllTransformFree context.supplies nodes → ∀ (enclosing : List TypeName)
    (base : FieldPath) {document : Json}, enclosing ≠ [] → document.WellFormed →
    Answers Json.WellFormed (weaveAll context enclosing base document nodes)
  | [], _, _, _, _, _, _, hdocument => Answers.pure hdocument
  | node :: rest, hwf, hfree, enclosing, base, document, henclosing, hdocument => by
    rw [weaveAll]
    refine (weave_answers node hwf.1 hfree.1 enclosing base henclosing hdocument).bind
      fun left hleft ↦ ?_
    exact weaveAll_answers rest hwf.2 hfree.2 enclosing base henclosing hleft

theorem weaveScript_answers (owner : String) : ∀ script : Script,
    script.WellFormed context.supplies → script.TransformFree context.supplies →
    ∀ (enclosing : List TypeName) (base : FieldPath) {document : Json}, enclosing ≠ [] →
    document.WellFormed →
    Answers Json.WellFormed (weaveScript context owner enclosing base document script)
  | .yield node, hwf, hfree, enclosing, base, document, henclosing, hdocument => by
    rw [weaveScript]
    exact weave_answers node hwf hfree enclosing base henclosing hdocument
  | .suspend, _, _, enclosing, base, document, _, hdocument => by
    rw [weaveScript]
    exact (Answers.note _).bind fun _ _ ↦ Answers.pure hdocument
  | .read handle next, hwf, hfree, enclosing, base, document, henclosing, hdocument => by
    have hnext := weaveScript_answers owner (next (context.supplies.value? handle)) hwf hfree
      enclosing base henclosing hdocument
    rw [weaveScript]
    split
    · exact (Answers.note _).bind fun _ _ ↦ hnext
    · exact hnext
  | .require message check next, hwf, hfree, enclosing, base, document, henclosing,
      hdocument => by
    rw [weaveScript]
    refine (Answers.note _).bind fun _ _ ↦ ?_
    exact weaveScript_answers owner next hwf hfree enclosing base henclosing hdocument

end

/-- Inside an element, an object stays an object. -/
theorem weaveAll_answers_object {nodes : List Node} {enclosing : List TypeName} {base : FieldPath}
    {fields : Members} (henclosing : enclosing ≠ [])
    (hfree : Node.AllTransformFree context.supplies nodes) :
    Answers (fun value ↦ ∃ members, value = object members)
      (weaveAll context enclosing base (object fields) nodes) := by
  intro log value after hexec
  obtain ⟨placed, htraced⟩ := exec_weaveAllTraced hexec
  have hrecorded := weaveAllTraced_records context nodes hfree enclosing base (object fields)
    henclosing (by simp) log value placed after htraced
  obtain ⟨members, hvalue, -⟩ := extendedBy_object_iff.mp hrecorded.grows
  exact ⟨members, hvalue⟩

section Outermost

variable {type : TypeName} {props : Members} {tag : Option String} {children : List Node}

/-- The outermost element of a tree fills the document with an object. -/
theorem weave_outermost_answers
    (hwf : (Node.element type props tag children).WellFormed context.supplies)
    (hfree : (Node.element type props tag children).TransformFree context.supplies) :
    Answers Json.WellFormedObject
      (weave context [] .root .null (.element type props tag children)) := by
  rw [weave]
  refine (Answers.settleWith _).bind fun relation hlocate ↦ ?_
  cases hlocate
  refine (Answers.settleWith _).bind fun fields hexpand ↦ ?_
  have hfields := FieldRules.expand_wellFormed hexpand hwf.1
  have hvalue := weaveAll_answers children hwf.2 hfree [type] .root (by simp) hfields
  refine (hvalue.and (weaveAll_answers_object (by simp) hfree)).bind ?_
  rintro _ ⟨hvalue, members, rfl⟩
  refine (Answers.written _).bind fun answer hmerge ↦ Answers.pure ?_
  rw [mergeAt_null hvalue] at hmerge
  have hdocument : object members = answer.2 := congrArg Prod.snd hmerge
  exact ⟨members, hdocument.symm, hvalue⟩

/-- At the top of a tree an element composes to one document, an object without a repeated key. -/
theorem collect_element_answers
    (hwf : (Node.element type props tag children).WellFormed context.supplies)
    (hfree : (Node.element type props tag children).TransformFree context.supplies) :
    Answers (fun documents ↦ ∃ document, documents = [document] ∧ document.WellFormedObject)
      (collect context (.element type props tag children)) := by
  have hwhole : Answers Json.WellFormedObject
      (documentOf context (.element type props tag children)) := by
    unfold documentOf
    refine (weave_outermost_answers hwf hfree).bind ?_
    rintro _ ⟨members, rfl, hmembers⟩
    exact Answers.pure ⟨members, rfl, hmembers⟩
  rw [collect]
  exact hwhole.bind fun document hdocument ↦ Answers.pure ⟨document, rfl, hdocument⟩

end Outermost

end Weave

/-! ## The round trip -/

/-- An element that rebuilds an object composes to it. -/
theorem compose_of_rebuilds {context : Context} {type : TypeName} {members : Members}
    {outline : Outline} (h : outline.Rebuilds context type members)
    (hwf : (object members).WellFormed) :
    ∃ again, compose context outline.toNode = .ok [again] ∧ again.Alike (object members) := by
  obtain ⟨value, hexec, hvalue, hsame⟩ := exec_collect_of_rebuilds h PassLog.empty
  refine ⟨object value, ?_, alike_of_sameLeaves _ hvalue hwf hsame⟩
  have hpass : pass context outline.toNode = (.ok [object value], PassLog.empty) := hexec
  rw [compose, hpass]
  rfl

/-- The composed document of an element without transforms decomposes, as a value of the element's
type, into a tree that composes to the document again, up to the order of its object keys. -/
theorem compose_decompose_composed {declared : List Relation} {schema : Schema} {marker : String}
    {supplies : Supplies} {type : TypeName} {props : Members} {tag : Option String}
    {children : List Node} {documents : List Json}
    (hrelations : Relations.ofList declared = .ok schema.relations)
    (hschema : schema.Recomposable marker)
    (hwf : (Node.element type props tag children).WellFormed supplies)
    (hfree : (Node.element type props tag children).TransformFree supplies)
    (hcompose : compose ⟨schema, marker, supplies⟩ (.element type props tag children) =
      .ok documents) :
    ∃ document, documents = [document] ∧ ∀ later : Supplies, ∃ again,
      compose ⟨schema, marker, later⟩
          (Decompose.decompose schema marker type document).root.toNode = .ok [again] ∧
        again.Alike document := by
  have hanswers : Answers
      (fun documents ↦ ∃ document, documents = [document] ∧ document.WellFormedObject)
      (collect ⟨schema, marker, supplies⟩ (.element type props tag children)) :=
    collect_element_answers hwf hfree
  rw [compose] at hcompose
  split at hcompose
  · next composed log hpass =>
    have hcomposed : composed = documents := Settle.finalize_eq_ok hcompose
    obtain ⟨_, hdocument, members, rfl, hobject⟩ := hanswers PassLog.empty composed log hpass
    refine ⟨object members, hcomposed ▸ hdocument, fun later ↦ ?_⟩
    have hrebuilds := Decompose.element_rebuilds
      (show Relations.ofList declared =
        .ok (Context.mk schema marker later).schema.relations from hrelations)
      hschema (object members).height type members hobject
    exact compose_of_rebuilds hrebuilds hobject
  · cases hcompose

/-- A relation to a place inside the place of an earlier one: the outer child takes the inner one
with it. -/
theorem compose_decompose_composed_nested :
    let parent : TypeName := ⟨"P"⟩
    let outer : Relation := ⟨⟨"B"⟩, parent, .ofKeys ["x"], false, none⟩
    let inner : Relation := ⟨⟨"A"⟩, parent, .ofKeys ["x", "y"], false, none⟩
    let relations : Relations := ⟨[(parent, [outer, inner])],
      [((parent, outer.child), .only outer), ((parent, inner.child), .only inner)]⟩
    let schema : Schema := ⟨relations, [], default⟩
    let one : Json := .number (.integer 1)
    let tree : Node := .element parent [] none [.element outer.child [("b", one)] none [],
      .element inner.child [("a", one)] none []]
    let document : Json := .object [("x", .object [("b", one), ("y", .object [("a", one)])])]
    schema.Recomposable "@" ∧ compose ⟨schema, "@", []⟩ tree = .ok [document] ∧ ∃ again,
      compose ⟨schema, "@", []⟩ (Decompose.decompose schema "@" parent document).root.toNode =
        .ok [again] ∧ again.Alike document := by
  intro parent outer inner relations schema one tree document
  have hrelations : Relations.ofList [outer, inner] = .ok schema.relations := rfl
  have hunder (type : TypeName) : schema.relations.under type = [outer, inner] ∨
      schema.relations.under type = [] := by
    by_cases htype : parent = type
    · subst htype
      exact Or.inl rfl
    · right
      simp [schema, relations, Relations.under, Association.get?_cons_of_ne htype]
  have hplain (type : TypeName) : schema.rulesOf type = FieldRules.plain := rfl
  have hschema : schema.Recomposable "@" :=
    { keys := by
        intro type relation hmem
        rcases hunder type with htype | htype <;> rw [htype] at hmem
        · rcases List.mem_pair.mp hmem with rfl | rfl <;> rfl
        · cases hmem
      ordered := by
        intro type
        rcases hunder type with htype | htype <;> rw [htype]
        · refine List.pairwise_pair.mpr fun _ hstart ↦ ?_
          have hlength : 2 ≤ 1 := hstart.length_le
          omega
        · exact .nil
      unmarkedSpec := by
        intro type key hkey
        rw [hplain] at hkey
        cases hkey
      unmarkedPaths := fun _ _ _ _ _ _ _ ↦ rfl }
  have hwf : tree.WellFormed [] := by
    simp [tree, one, Node.WellFormed, Node.AllWellFormed, Json.WellFormed, MembersWellFormed]
  have hfree : tree.TransformFree [] := ⟨trivial, trivial, trivial⟩
  have hcompose : compose ⟨schema, "@", []⟩ tree = .ok [document] := rfl
  obtain ⟨_, hdocument, hagain⟩ := compose_decompose_composed hrelations hschema hwf hfree hcompose
  cases hdocument
  exact ⟨hschema, hcompose, hagain []⟩

/-- Whether a composed document survives depends on the order of the declarations. Declared the
other way round, the relation to the inner place is visited first; what is left at the outer place
then becomes a child behind the inner one, whose place is taken when it is composed. -/
theorem compose_decompose_innerFirst :
    let parent : TypeName := ⟨"P"⟩
    let outer : Relation := ⟨⟨"B"⟩, parent, .ofKeys ["x"], false, none⟩
    let inner : Relation := ⟨⟨"A"⟩, parent, .ofKeys ["x", "y"], false, none⟩
    let relations : Relations := ⟨[(parent, [inner, outer])],
      [((parent, inner.child), .only inner), ((parent, outer.child), .only outer)]⟩
    let schema : Schema := ⟨relations, [], default⟩
    let one : Json := .number (.integer 1)
    let tree : Node := .element parent [] none [.element outer.child [("b", one)] none [],
      .element inner.child [("a", one)] none []]
    let document : Json := .object [("x", .object [("b", one), ("y", .object [("a", one)])])]
    Relations.ofList [inner, outer] = .ok schema.relations ∧ tree.TransformFree [] ∧
      compose ⟨schema, "@", []⟩ tree = .ok [document] ∧
      compose ⟨schema, "@", []⟩ (Decompose.decompose schema "@" parent document).root.toNode =
        .error (.occupied (.ofKeys ["x"])) := by
  intro parent outer inner relations schema one tree document
  exact ⟨rfl, ⟨trivial, trivial, trivial⟩, rfl, rfl⟩

end Compose
end ManifestTree
