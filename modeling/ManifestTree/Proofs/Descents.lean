import ManifestTree.Proofs.PassFailures
import ManifestTree.Proofs.RoundTrip

/-!
# Decomposed trees find their relations again

The tag that decomposing gives to a child is enough to find the relation through which the child was
taken: below its parent's type, the child's type and this tag resolve to exactly that relation, at
every depth of the tree. A twin of decomposing writes the relations down as it goes. So composing a
decomposed tree never fails for want of a place; where something cannot be written it may still
fail. Only the grouping of the declared relations is used, nothing about their paths.
-/

namespace ManifestTree

/-! ## Relations told apart -/

namespace Relations

variable {declared : List Relation} {relations : Relations}

/-- The declared relations of a pair are those under the parent that lead to the child. -/
theorem ofPair_eq_filter_under (h : ofList declared = .ok relations) (parent child : TypeName) :
    ofPair declared parent child =
      (relations.under parent).filter fun relation ↦ relation.child = child := by
  rw [ofPair, under_ofList h, List.filter_filter]
  apply List.filter_congr
  simp [and_comm]

theorem resolve_label (h : ofList declared = .ok relations) {parent : TypeName}
    {relation : Relation} (hmem : relation ∈ relations.under parent) :
    relations.resolve parent relation.child (some relation.label) = .ok relation := by
  rw [resolve_eq_ok_iff h, ofPair_eq_filter_under h]
  exact ⟨List.mem_filter.mpr ⟨hmem, by simp⟩, Or.inl rfl⟩

/-- Relations of one parent and child have different labels. -/
theorem label_ne_of_under (h : ofList declared = .ok relations) (parent : TypeName) :
    (relations.under parent).Pairwise fun relation other ↦
      relation.child = other.child → relation.label ≠ other.label := by
  rw [List.pairwise_iff_getElem]
  intro i j hi hj hlt hchild
  have hlabels := (ofList_isOk_iff declared).mp ⟨relations, h⟩ parent
    (relations.under parent)[i].child
  rw [ofPair_eq_filter_under h, List.nodup_iff_pairwise_ne, List.pairwise_map,
    List.pairwise_filter, List.pairwise_iff_getElem] at hlabels
  exact hlabels i j hi hj hlt (by simp) (by simp [hchild])

/-- No two relations of one parent share both the child and the tag that reaches them. -/
theorem selector_ne_of_under (h : ofList declared = .ok relations) (parent : TypeName) :
    (relations.under parent).Pairwise fun relation other ↦ ¬ (relation.child = other.child ∧
      relations.selector relation = relations.selector other) := by
  apply (label_ne_of_under h parent).imp_of_mem
  rintro relation other hmem hother hne ⟨hchild, hselector⟩
  have hresolve := resolve_selector h hmem
  rw [hselector, hchild, resolve_selector h hother] at hresolve
  cases hresolve
  exact hne rfl rfl

end Relations

/-! ## Edges of a tree -/

/-- An element directly below another one, literals and fragments aside. -/
structure Edge where
  parent : TypeName
  child : TypeName
  tag : Option String
  deriving DecidableEq, Repr

namespace Outline

mutual

/-- The edges of a tree, depth first; `around` is the type of the element around the tree. -/
def edges (around : Option TypeName) : Outline → List Edge
  | fragment children => edgesOfAll around children
  | element type _ tag children =>
    (around.toList.map fun parent ↦ ⟨parent, type, tag⟩) ++ edgesOfAll (some type) children
  | literal _ _ _ children => edgesOfAll around children

def edgesOfAll (around : Option TypeName) : List Outline → List Edge
  | [] => []
  | outline :: rest => outline.edges around ++ edgesOfAll around rest

end

theorem edgesOfAll_append (around : Option TypeName) (front back : List Outline) :
    edgesOfAll around (front ++ back) = edgesOfAll around front ++ edgesOfAll around back := by
  induction front with
  | nil => rfl
  | cons outline rest ih =>
    rw [List.cons_append, edgesOfAll, edgesOfAll, ih, List.append_assoc]

theorem mem_edgesOfAll {around : Option TypeName} {outlines : List Outline} {edge : Edge} :
    edge ∈ edgesOfAll around outlines ↔ ∃ outline ∈ outlines, edge ∈ outline.edges around := by
  induction outlines with
  | nil => simp [edgesOfAll]
  | cons outline rest ih => simp [edgesOfAll, ih]

section Placing

variable {schema : Schema} {supplies : Supplies} {failure : Failure}

mutual

/-- An element without a place stands at an edge that does not resolve. -/
theorem exists_edge_of_misplaces : ∀ (outline : Outline) (enclosing : List TypeName),
    outline.toNode.Misplaces schema supplies failure enclosing →
    ∃ edge ∈ outline.edges enclosing.getLast?, ∃ fault,
      schema.relations.resolve edge.parent edge.child edge.tag = .error fault
  | fragment children, enclosing, h => exists_edge_of_anyMisplaces children enclosing h
  | element type _ tag children, enclosing, h => by
    rcases h with hlocate | hchildren
    · obtain ⟨-, parent, fault, hparent, hresolve⟩ := Compose.locate_eq_error hlocate
      refine ⟨⟨parent, type, tag⟩, ?_, fault, hresolve⟩
      rw [edges, hparent]
      exact List.mem_append_left _ (List.mem_singleton.mpr rfl)
    · obtain ⟨edge, hmem, hfault⟩ := exists_edge_of_anyMisplaces children _ hchildren
      rw [List.getLast?_concat] at hmem
      exact ⟨edge, List.mem_append_right _ hmem, hfault⟩
  | literal _ _ _ children, enclosing, h => exists_edge_of_anyMisplaces children enclosing h

theorem exists_edge_of_anyMisplaces : ∀ (outlines : List Outline) (enclosing : List TypeName),
    Node.AnyMisplaces schema supplies failure enclosing (toNodes outlines) →
    ∃ edge ∈ edgesOfAll enclosing.getLast? outlines, ∃ fault,
      schema.relations.resolve edge.parent edge.child edge.tag = .error fault
  | outline :: rest, enclosing, h => by
    rcases h with hfirst | hrest
    · obtain ⟨edge, hmem, hfault⟩ := exists_edge_of_misplaces outline enclosing hfirst
      exact ⟨edge, List.mem_append_left _ hmem, hfault⟩
    · obtain ⟨edge, hmem, hfault⟩ := exists_edge_of_anyMisplaces rest enclosing hrest
      exact ⟨edge, List.mem_append_right _ hmem, hfault⟩

end

/-- Where every edge resolves, composing the tree does not fail for want of a place. -/
theorem not_isPlacement_of_compose {marker : String} {outline : Outline}
    (hedges : ∀ edge ∈ outline.edges none, ∃ relation,
      schema.relations.resolve edge.parent edge.child edge.tag = .ok relation)
    (h : Compose.compose ⟨schema, marker, supplies⟩ outline.toNode = .error failure) :
    ¬ failure.IsPlacement := by
  rcases Compose.compose_eq_error h with hwriting | hmisplaced | ⟨count, rfl⟩ | ⟨failures, rfl⟩
  · exact hwriting.not_isPlacement
  · obtain ⟨edge, hmem, fault, hfault⟩ := exists_edge_of_misplaces outline [] hmisplaced
    obtain ⟨relation, hresolve⟩ := hedges edge hmem
    rw [hfault] at hresolve
    cases hresolve
  · exact fun hplacement ↦ nomatch hplacement
  · exact fun hplacement ↦ nomatch hplacement

end Placing

end Outline

namespace Decompose

/-! ## The twin of decomposing -/

/-- How a child came about: below which type, and through which relation it was taken. -/
structure Descent where
  parent : TypeName
  relation : Relation
  deriving DecidableEq, Repr

def Descent.edge (relations : Relations) (descent : Descent) : Edge :=
  ⟨descent.parent, descent.relation.child, relations.selector descent.relation⟩

/-- How objects below the one at hand are decomposed, with every descent on the way. -/
abbrev NestedTraced := TypeName → Members → (Outline × Findings) × List Descent

/-- The elements of several objects that a relation took out below a type. -/
def elementsTraced (nested : NestedTraced) (descent : Descent) (tag : Option String) :
    List Members → (List Outline × Findings) × List Descent
  | [] => (([], Findings.empty), [])
  | members :: rest =>
    let ((child, met), below) := nested descent.relation.child members
    let ((children, findings), more) := elementsTraced nested descent tag rest
    ((child.withTag tag :: children, Findings.append met findings), descent :: below ++ more)

/-- The children that relations take out of a value one after another, and what is left. -/
def visitAllTraced (relations : Relations) (nested : NestedTraced) (parent : TypeName)
    (value : Json) : List Relation → (List Outline × Json × Findings) × List Descent
  | [] => (([], value, Findings.empty), [])
  | relation :: rest =>
    match visit relation value with
    | .nothing => visitAllTraced relations nested parent value rest
    | .kept warning =>
      let ((children, left, findings), more) := visitAllTraced relations nested parent value rest
      ((children, left, Findings.append ⟨[], [warning]⟩ findings), more)
    | .taken objects left =>
      let ((front, met), below) :=
        elementsTraced nested ⟨parent, relation⟩ (relations.selector relation) objects
      let ((children, left, findings), more) := visitAllTraced relations nested parent left rest
      ((front ++ children, left, Findings.append met findings), below ++ more)

/-- The element of an object of a type whose collections nest at most `depth` deep. -/
def elementTraced (schema : Schema) (marker : String) : Nat → NestedTraced
  | 0, type, members => ((finish schema marker type (.object members) [], ⟨[type], []⟩), [])
  | depth + 1, type, members =>
    let ((children, left, findings), descents) :=
      visitAllTraced schema.relations (elementTraced schema marker depth) type (.object members)
        (schema.relations.under type)
    ((finish schema marker type left children, Findings.append ⟨[type], []⟩ findings), descents)

def decomposeTraced (schema : Schema) (marker : String) (type : TypeName) (document : Json) :
    Decomposition × List Descent :=
  match document with
  | .object members =>
    let ((root, findings), descents) :=
      elementTraced schema marker (Json.object members).height type members
    (⟨root, TypeName.sorted findings.types, findings.warnings⟩, descents)
  | other => (⟨Outline.passthrough other, [], []⟩, [])

def decomposeDocumentTraced (schema : Schema) (marker : String) (document : Json) :
    Decomposition × List Descent :=
  match schema.types.identify document with
  | .ok type => decomposeTraced schema marker type document
  | .error unknown => (⟨Outline.passthrough document, [], [unknown]⟩, [])

/-! ## The twin is decomposing -/

section Erasing

variable {schema : Schema} {marker : String}

theorem fst_elementsTraced {nested : NestedTraced} {plain : Nested}
    (h : ∀ type members, (nested type members).1 = plain type members) (descent : Descent)
    (tag : Option String) (objects : List Members) :
    (elementsTraced nested descent tag objects).1 =
      elements plain descent.relation.child tag objects := by
  induction objects with
  | nil => rfl
  | cons members rest ih => rw [elementsTraced, elements, ← h, ← ih]

theorem fst_visitAllTraced (relations : Relations) {nested : NestedTraced} {plain : Nested}
    (h : ∀ type members, (nested type members).1 = plain type members) (parent : TypeName)
    (visiting : List Relation) (value : Json) :
    (visitAllTraced relations nested parent value visiting).1 =
      visitAll relations plain value visiting := by
  induction visiting generalizing value with
  | nil => rfl
  | cons relation rest ih =>
    rw [visitAllTraced, visitAll]
    cases visit relation value with
    | nothing => exact ih value
    | kept warning =>
      dsimp only
      rw [← ih value]
    | taken objects left =>
      dsimp only
      rw [← ih left, ← fst_elementsTraced h ⟨parent, relation⟩]

theorem fst_elementTraced (depth : Nat) (type : TypeName) (members : Members) :
    (elementTraced schema marker depth type members).1 =
      element schema marker depth type members := by
  induction depth generalizing type members with
  | zero => rfl
  | succ depth ih =>
    rw [elementTraced, element, ← fst_visitAllTraced schema.relations ih type]

theorem fst_decomposeTraced (type : TypeName) (document : Json) :
    (decomposeTraced schema marker type document).1 = decompose schema marker type document := by
  cases document with
  | object members =>
    rw [decomposeTraced, decompose]
    dsimp only
    rw [← fst_elementTraced]
  | _ => rfl

theorem fst_decomposeDocumentTraced (document : Json) :
    (decomposeDocumentTraced schema marker document).1 =
      decomposeDocument schema marker document := by
  rw [decomposeDocumentTraced, decomposeDocument]
  cases schema.types.identify document with
  | ok type => exact fst_decomposeTraced type document
  | error unknown => rfl

end Erasing

/-! ## The edges of a decomposed tree -/

/-- The edges are those of the descents, and each descent goes through a declared relation. -/
structure Follows (relations : Relations) (edges : List Edge) (descents : List Descent) : Prop where
  edges_eq : edges = descents.map (Descent.edge relations)
  /-- The relations stand under the types of the objects that they were used on. -/
  declared : ∀ descent ∈ descents, descent.relation ∈ relations.under descent.parent

namespace Follows

variable {relations : Relations} {edges more : List Edge} {descents others : List Descent}

theorem nil (relations : Relations) : Follows relations [] [] := ⟨rfl, by simp⟩

theorem append (h : Follows relations edges descents) (hmore : Follows relations more others) :
    Follows relations (edges ++ more) (descents ++ others) where
  edges_eq := by rw [h.edges_eq, hmore.edges_eq, List.map_append]
  declared := List.forall_mem_append.mpr ⟨h.declared, hmore.declared⟩

theorem cons {descent : Descent} (hmem : descent.relation ∈ relations.under descent.parent)
    (h : Follows relations edges descents) :
    Follows relations (descent.edge relations :: edges) (descent :: descents) where
  edges_eq := by rw [h.edges_eq, List.map_cons]
  declared := List.forall_mem_cons.mpr ⟨hmem, h.declared⟩

end Follows

/-- Of each object, the edges inside its element follow the descents below it. -/
def NestedTraced.Faithful (nested : NestedTraced) (relations : Relations) : Prop :=
  ∀ type members around tag, ∃ inside,
    ((nested type members).1.1.withTag tag).edges around =
      (around.toList.map fun parent ↦ ⟨parent, type, tag⟩) ++ inside ∧
    Follows relations inside (nested type members).2

section Following

variable {schema : Schema} {marker : String}

theorem elementsTraced_follows {relations : Relations} {nested : NestedTraced}
    (hnested : nested.Faithful relations) (descent : Descent)
    (hdeclared : descent.relation ∈ relations.under descent.parent) (objects : List Members) :
    let traced := elementsTraced nested descent (relations.selector descent.relation) objects
    Follows relations (Outline.edgesOfAll (some descent.parent) traced.1.1) traced.2 := by
  induction objects with
  | nil => exact Follows.nil relations
  | cons members rest ih =>
    obtain ⟨inside, hedges, hinside⟩ := hnested descent.relation.child members
      (some descent.parent) (relations.selector descent.relation)
    have hchild := (Follows.cons hdeclared hinside).append ih
    rw [elementsTraced]
    dsimp only
    rw [Outline.edgesOfAll, hedges]
    exact hchild

theorem visitAllTraced_follows {relations : Relations} {nested : NestedTraced}
    (hnested : nested.Faithful relations) (parent : TypeName) {visiting : List Relation}
    (hdeclared : visiting ⊆ relations.under parent) (value : Json) :
    let traced := visitAllTraced relations nested parent value visiting
    Follows relations (Outline.edgesOfAll (some parent) traced.1.1) traced.2 := by
  induction visiting generalizing value with
  | nil => exact Follows.nil relations
  | cons relation rest ih =>
    obtain ⟨hrelation, hrest⟩ := List.cons_subset.mp hdeclared
    rw [visitAllTraced]
    cases visit relation value with
    | nothing => exact ih hrest value
    | kept warning => exact ih hrest value
    | taken objects left =>
      have hfront := elementsTraced_follows hnested ⟨parent, relation⟩ hrelation objects
      have hboth := hfront.append (ih hrest left)
      dsimp only at hboth ⊢
      rw [Outline.edgesOfAll_append]
      exact hboth

theorem edges_literals (verbatim : Members) (around : Option TypeName) :
    Outline.edgesOfAll around (verbatim.map fun (name, value) ↦
      Outline.literal (FieldPath.ofKeys [name]) (some value) false []) = [] := by
  induction verbatim with
  | nil => rfl
  | cons entry rest ih =>
    rw [List.map_cons, Outline.edgesOfAll, ih]
    rfl

theorem edges_finish (type : TypeName) (left : Json) (children : List Outline)
    (tag : Option String) (around : Option TypeName) :
    ((finish schema marker type left children).withTag tag).edges around =
      (around.toList.map fun parent ↦ ⟨parent, type, tag⟩) ++
        Outline.edgesOfAll (some type) children := by
  rw [finish]
  dsimp only
  rw [Outline.withTag, Outline.edges, Outline.edgesOfAll_append, edges_literals, List.append_nil]

theorem elementTraced_faithful (depth : Nat) :
    (elementTraced schema marker depth).Faithful schema.relations := by
  induction depth with
  | zero =>
    intro type members around tag
    rw [elementTraced]
    refine ⟨[], ?_, Follows.nil _⟩
    rw [edges_finish]
    rfl
  | succ depth ih =>
    intro type members around tag
    have hchildren := visitAllTraced_follows ih type (List.Subset.refl _) (.object members)
    rw [elementTraced]
    dsimp only at hchildren ⊢
    exact ⟨_, edges_finish _ _ _ _ _, hchildren⟩

/-- An element is made without a tag. -/
theorem withTag_elementTraced (depth : Nat) (type : TypeName) (members : Members) :
    (elementTraced schema marker depth type members).1.1.withTag none =
      (elementTraced schema marker depth type members).1.1 := by
  cases depth <;> rfl

theorem decomposeTraced_follows (type : TypeName) (document : Json) :
    let traced := decomposeTraced schema marker type document
    Follows schema.relations (traced.1.root.edges none) traced.2 := by
  cases document with
  | object members =>
    obtain ⟨inside, hedges, hinside⟩ :=
      elementTraced_faithful (Json.object members).height type members none none
    rw [withTag_elementTraced] at hedges
    rw [decomposeTraced]
    dsimp only
    rw [hedges]
    exact hinside
  | _ => exact Follows.nil schema.relations

theorem edges_passthrough (document : Json) : (Outline.passthrough document).edges none = [] := by
  cases document <;> rfl

theorem decomposeDocumentTraced_follows (document : Json) :
    let traced := decomposeDocumentTraced schema marker document
    Follows schema.relations (traced.1.root.edges none) traced.2 := by
  rw [decomposeDocumentTraced]
  cases schema.types.identify document with
  | ok type => exact decomposeTraced_follows type document
  | error unknown =>
    dsimp only
    rw [edges_passthrough]
    exact Follows.nil schema.relations

end Following

/-- The twin's answer is the decomposition, the edges of its tree follow the descents, and each edge
resolves to the relation of its descent. -/
structure Retraces (relations : Relations) (traced : Decomposition × List Descent)
    (plain : Decomposition) : Prop where
  fst_eq : traced.1 = plain
  follows : Follows relations (plain.root.edges none) traced.2
  /-- Each edge leads to the relation through which its child was taken. -/
  resolves : ∀ descent ∈ traced.2, relations.resolve descent.parent (descent.edge relations).child
    (descent.edge relations).tag = .ok descent.relation

/-- A tree that decomposing makes, of a document of a given type or of the type that it names. -/
def Makes (schema : Schema) (marker : String) (root : Outline) : Prop :=
  ∃ document, (∃ type, root = (decompose schema marker type document).root) ∨
    root = (decomposeDocument schema marker document).root

section Resolving

variable {declared : List Relation} {schema : Schema} {marker : String}

theorem Follows.retraces (hdeclared : Relations.ofList declared = .ok schema.relations)
    {traced : Decomposition × List Descent} {plain : Decomposition} (hfst : traced.1 = plain)
    (h : Follows schema.relations (traced.1.root.edges none) traced.2) :
    Retraces schema.relations traced plain where
  fst_eq := hfst
  follows := hfst ▸ h
  resolves := fun descent hmem ↦ Relations.resolve_selector hdeclared (h.declared descent hmem)

theorem retraces_decompose (hdeclared : Relations.ofList declared = .ok schema.relations)
    (type : TypeName) (document : Json) :
    Retraces schema.relations (decomposeTraced schema marker type document)
      (decompose schema marker type document) :=
  (decomposeTraced_follows type document).retraces hdeclared (fst_decomposeTraced type document)

theorem retraces_decomposeDocument (hdeclared : Relations.ofList declared = .ok schema.relations)
    (document : Json) :
    Retraces schema.relations (decomposeDocumentTraced schema marker document)
      (decomposeDocument schema marker document) :=
  (decomposeDocumentTraced_follows document).retraces hdeclared
    (fst_decomposeDocumentTraced document)

theorem Retraces.exists_resolve {relations : Relations} {traced : Decomposition × List Descent}
    {plain : Decomposition} (h : Retraces relations traced plain) :
    ∀ edge ∈ plain.root.edges none, ∃ relation,
      relations.resolve edge.parent edge.child edge.tag = .ok relation := by
  intro edge hmem
  rw [h.follows.edges_eq] at hmem
  obtain ⟨descent, hdescent, rfl⟩ := List.mem_map.mp hmem
  exact ⟨descent.relation, h.resolves descent hdescent⟩

theorem Makes.exists_resolve (hdeclared : Relations.ofList declared = .ok schema.relations)
    {root : Outline} (h : Makes schema marker root) :
    ∀ edge ∈ root.edges none, ∃ relation,
      schema.relations.resolve edge.parent edge.child edge.tag = .ok relation := by
  obtain ⟨document, ⟨type, rfl⟩ | rfl⟩ := h
  · exact (retraces_decompose hdeclared type document).exists_resolve
  · exact (retraces_decomposeDocument hdeclared document).exists_resolve

/-- Decomposing writes tags that find every relation again. For every accepted list of relations,
both the tag that decomposing writes and the label resolve to the relation itself, and no two
relations of a parent share the child and that tag. So in the tree of every document each element
below another one resolves, below its parent's type, to the relation through which it was taken, and
composing decomposed trees, one or several, never fails because an element has no place. -/
theorem decomposed_resolves (hdeclared : Relations.ofList declared = .ok schema.relations) :
    let relations := schema.relations
    (∀ parent, (∀ relation ∈ relations.under parent,
        relations.resolve parent relation.child (relations.selector relation) = .ok relation ∧
        relations.resolve parent relation.child (some relation.label) = .ok relation) ∧
      (relations.under parent).Pairwise fun relation other ↦ ¬ (relation.child = other.child ∧
        relations.selector relation = relations.selector other)) ∧
    (∀ marker type document, Retraces relations (decomposeTraced schema marker type document)
      (decompose schema marker type document)) ∧
    (∀ marker document, Retraces relations (decomposeDocumentTraced schema marker document)
      (decomposeDocument schema marker document)) ∧
    ∀ marker roots, (∀ root ∈ roots, Makes schema marker root) → ∀ hoistMarker supplies failure,
      (∀ root ∈ roots,
        Compose.compose ⟨schema, hoistMarker, supplies⟩ root.toNode = .error failure →
          ¬ failure.IsPlacement) ∧
      (Compose.compose ⟨schema, hoistMarker, supplies⟩ (Outline.fragment roots).toNode =
          .error failure → ¬ failure.IsPlacement) := by
  intro relations
  refine ⟨fun parent ↦ ⟨fun relation hmem ↦ ?_, Relations.selector_ne_of_under hdeclared parent⟩,
    ?_, ?_, ?_⟩
  · exact ⟨Relations.resolve_selector hdeclared hmem, Relations.resolve_label hdeclared hmem⟩
  · exact fun marker type document ↦ retraces_decompose hdeclared type document
  · exact fun marker document ↦ retraces_decomposeDocument hdeclared document
  · intro marker roots hroots hoistMarker supplies failure
    constructor
    · intro root hmem
      exact Outline.not_isPlacement_of_compose ((hroots root hmem).exists_resolve hdeclared)
    · apply Outline.not_isPlacement_of_compose
      intro edge hedge
      obtain ⟨root, hmem, hedge⟩ := Outline.mem_edgesOfAll.mp hedge
      exact (hroots root hmem).exists_resolve hdeclared edge hedge

end Resolving

/-- A pod with containers at two places, one of them tagged, and a volume that needs no tag. -/
theorem decomposed_resolves_tagged :
    let pod : TypeName := ⟨"Pod"⟩
    let main : Relation := ⟨⟨"Container"⟩, pod, .ofKeys ["containers"], true, none⟩
    let init : Relation := ⟨⟨"Container"⟩, pod, .ofKeys ["inits"], true, some "init"⟩
    let volume : Relation := ⟨⟨"Volume"⟩, pod, .ofKeys ["volume"], false, none⟩
    let relations : Relations := ⟨[(pod, [main, init, volume])],
      [((pod, main.child), .tagged (some main) [("init", init)]),
        ((pod, volume.child), .only volume)]⟩
    let schema : Schema := { (default : Schema) with relations := relations }
    let item (name : String) : Json := .object [("name", .string name)]
    let document : Json := .object [("volume", item "data"), ("inits", .array [item "setup"]),
      ("containers", .array [item "web"])]
    let traced := decomposeTraced schema "@" pod document
    Relations.ofList [main, init, volume] = .ok schema.relations ∧
      traced.2 = [⟨pod, main⟩, ⟨pod, init⟩, ⟨pod, volume⟩] ∧
      (decompose schema "@" pod document).root.edges none =
        [⟨pod, main.child, some "default"⟩, ⟨pod, init.child, some "init"⟩,
          ⟨pod, volume.child, none⟩] ∧
      relations.resolve pod init.child (some "init") = .ok init := by
  intro pod main init volume relations schema item document traced
  have hrelations : Relations.ofList [main, init, volume] = .ok schema.relations := rfl
  have htraced : traced.2 = [⟨pod, main⟩, ⟨pod, init⟩, ⟨pod, volume⟩] := rfl
  obtain ⟨-, hdecompose, -⟩ := decomposed_resolves hrelations
  have hretraces := hdecompose "@" pod document
  refine ⟨hrelations, htraced, ?_, ?_⟩
  · rw [hretraces.follows.edges_eq, htraced]
    rfl
  · exact hretraces.resolves ⟨pod, init⟩ (by rw [htraced]; simp)

end Decompose
end ManifestTree
