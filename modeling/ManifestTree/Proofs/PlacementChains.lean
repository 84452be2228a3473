import ManifestTree.Proofs.PassFailures

/-!
# Which element a failed placement names

The elements of a tree stand in an order: depth first, each one before those inside it. A pass tries
to place them in this order. When it fails for want of a place, it names the first element that does
not resolve below the innermost element around it, and the types of all elements around it in its
document. Fragments, literals, transforms and components leave no trace in that chain, whatever was
composed before leaves none either, and an element without another one around it is always placed.
Which element fails when something cannot be written is not looked at.
-/

namespace ManifestTree

/-! ## The elements of a tree -/

/-- An element of a tree, seen from outside the tree. -/
structure Occurrence where
  chain : List TypeName
  type : TypeName
  tag : Option String
  deriving DecidableEq, Repr

/-- The element seen from outside further elements of the given types. -/
def Occurrence.below (outer : List TypeName) (here : Occurrence) : Occurrence :=
  { here with chain := outer ++ here.chain }

mutual

/-- The elements of a node, each before those inside it, in the components as they render with these
supplies. -/
def Node.occurrences (supplies : Supplies) : Node → List Occurrence
  | .fragment children => Node.allOccurrences supplies children
  | .element type _ tag children =>
    ⟨[], type, tag⟩ :: (Node.allOccurrences supplies children).map (Occurrence.below [type])
  | .literal _ _ _ children => Node.allOccurrences supplies children
  | .transform _ children => Node.allOccurrences supplies children
  | .component _ script => script.occurrences supplies

/-- The elements of several nodes, one node after another. -/
def Node.allOccurrences (supplies : Supplies) : List Node → List Occurrence
  | [] => []
  | node :: rest => node.occurrences supplies ++ Node.allOccurrences supplies rest

/-- The elements of the tree that the script yields, if any. -/
def Script.occurrences (supplies : Supplies) : Script → List Occurrence
  | .yield node => node.occurrences supplies
  | .suspend => []
  | .read handle next => (next (supplies.value? handle)).occurrences supplies
  | .require _ _ next => next.occurrences supplies

end

/-! ## Elements with and without a place -/

namespace Occurrence

/-- No element is around this one, or the innermost one has a place for it. -/
def Resolves (relations : Relations) (here : Occurrence) : Prop :=
  ∀ parent, here.chain.getLast? = some parent →
    ∃ relation, relations.resolve parent here.type here.tag = .ok relation

/-- The failure says that the innermost element around this one has no place for it, and names all
elements around it. -/
inductive MisplacedBy (relations : Relations) (here : Occurrence) : Failure → Prop where
  | unplaceable {parent : TypeName} (hparent : here.chain.getLast? = some parent)
    (h : relations.resolve parent here.type here.tag =
      .error (.unplaceable parent here.type [parent])) :
    MisplacedBy relations here (.unplaceable parent here.type here.chain)
  | ambiguous {parent : TypeName} {candidates : List String}
    (hparent : here.chain.getLast? = some parent)
    (h : relations.resolve parent here.type here.tag =
      .error (.ambiguous parent here.type here.tag candidates [parent])) :
    MisplacedBy relations here (.ambiguous parent here.type here.tag candidates here.chain)

end Occurrence

/-- The failure names the first of the elements that does not resolve. -/
def NamesFirst (relations : Relations) (occurrences : List Occurrence) (failure : Failure) : Prop :=
  ∃ earlier here later, occurrences = earlier ++ here :: later ∧
    (∀ other ∈ earlier, other.Resolves relations) ∧ here.MisplacedBy relations failure

namespace NamesFirst

variable {relations : Relations} {occurrences : List Occurrence} {failure : Failure}

theorem append_right (h : NamesFirst relations occurrences failure) (more : List Occurrence) :
    NamesFirst relations (occurrences ++ more) failure := by
  obtain ⟨earlier, here, later, rfl, hearlier, hhere⟩ := h
  exact ⟨earlier, here, later ++ more, by simp, hearlier, hhere⟩

theorem append_left (h : NamesFirst relations occurrences failure) {front : List Occurrence}
    (hfront : ∀ other ∈ front, other.Resolves relations) :
    NamesFirst relations (front ++ occurrences) failure := by
  obtain ⟨earlier, here, later, rfl, hearlier, hhere⟩ := h
  exact ⟨front ++ earlier, here, later, by simp, List.forall_mem_append.mpr ⟨hfront, hearlier⟩,
    hhere⟩

end NamesFirst

/-! ## Parts of a pass -/

namespace Weaving

variable {α β : Type} {relations : Relations}

/-- The part takes the elements in order: whenever it answers, all of them resolve, and when it
fails to place one, that is the first one that does not. -/
structure GoesThrough (relations : Relations) (occurrences : List Occurrence)
    (part : Weaving α) : Prop where
  resolves : ∀ log answer after, exec part log = (.ok answer, after) →
    ∀ here ∈ occurrences, here.Resolves relations
  /-- A failure comes from writing, or from the first element without a place. -/
  fails : FailsWith part fun failure ↦
    failure.IsWriting ∨ NamesFirst relations occurrences failure

/-- A part that does nothing but write takes no element. -/
theorem GoesThrough.writing {part : Weaving α} (h : FailsWith part Failure.IsWriting) :
    GoesThrough relations [] part where
  resolves := by simp
  fails := h.mono fun _ ↦ Or.inl

theorem GoesThrough.pure (answer : α) : GoesThrough relations [] (Pure.pure answer) :=
  .writing (FailsWith.pure answer)

theorem GoesThrough.note (change : PassLog → PassLog) :
    GoesThrough relations [] (Compose.note change) :=
  .writing (FailsWith.note change)

theorem GoesThrough.bind {occurrences more : List Occurrence} {part : Weaving α}
    {next : α → Weaving β} (h : GoesThrough relations occurrences part)
    (hnext : ∀ answer, GoesThrough relations more (next answer)) :
    GoesThrough relations (occurrences ++ more) (part >>= next) where
  resolves := by
    intro log answer after hexec
    obtain ⟨first, middle, hpart, hrest⟩ := exec_bind_eq_ok_iff.mp hexec
    exact List.forall_mem_append.mpr ⟨h.resolves log first middle hpart,
      (hnext first).resolves middle answer after hrest⟩
  fails := by
    intro log failure after hexec
    rcases hpart : exec part log with ⟨fault | first, middle⟩
    · rw [exec_bind_of_error hpart] at hexec
      cases hexec
      exact (h.fails log failure after hpart).imp_right fun hnames ↦ hnames.append_right more
    · rw [exec_bind_of_ok hpart] at hexec
      have hfront := h.resolves log first middle hpart
      exact ((hnext first).fails middle failure after hexec).imp_right fun hnames ↦
        hnames.append_left hfront

/-- A first part without elements, or a last one, changes nothing. -/
theorem GoesThrough.after {occurrences : List Occurrence} {part : Weaving α}
    {next : α → Weaving β} (h : GoesThrough relations [] part)
    (hnext : ∀ answer, GoesThrough relations occurrences (next answer)) :
    GoesThrough relations occurrences (part >>= next) :=
  h.bind hnext

theorem GoesThrough.before {occurrences : List Occurrence} {part : Weaving α}
    {next : α → Weaving β} (h : GoesThrough relations occurrences part)
    (hnext : ∀ answer, GoesThrough relations [] (next answer)) :
    GoesThrough relations occurrences (part >>= next) :=
  List.append_nil occurrences ▸ h.bind hnext

end Weaving

/-- Where a relation does not resolve, the failure names the pair and the tag. -/
theorem Relations.resolve_eq_error {relations : Relations} {parent child : TypeName}
    {tag : Option String} {fault : Failure}
    (h : relations.resolve parent child tag = .error fault) :
    fault = .unplaceable parent child [parent] ∨
      ∃ candidates, fault = .ambiguous parent child tag candidates [parent] := by
  unfold resolve at h
  split at h
  · cases h
    exact Or.inl rfl
  · next choice _ =>
    split at h
    · cases h
    · cases h
      exact Or.inr ⟨choice.candidates, rfl⟩

namespace Compose

open Weaving

/-- Looking for an element's place either finds it or names the element. -/
theorem locate_goesThrough (schema : Schema) (here : Occurrence) :
    GoesThrough schema.relations [here]
      (settleWith (locate schema here.chain here.type here.tag)) where
  resolves := by
    intro log relation after hexec other hother parent hparent
    cases List.mem_singleton.mp hother
    rw [exec_settleWith, locate, hparent] at hexec
    dsimp only at hexec
    cases hresolve : schema.relations.resolve parent here.type here.tag with
    | ok relation => exact ⟨relation, rfl⟩
    | error fault =>
      rw [hresolve] at hexec
      cases hexec
  fails := by
    apply FailsWith.settleWith
    intro failure hlocate
    obtain ⟨-, parent, fault, hparent, hresolve⟩ := locate_eq_error hlocate
    rw [locate, hparent] at hlocate
    dsimp only at hlocate
    rw [hresolve] at hlocate
    refine Or.inr ⟨[], here, [], rfl, by simp, ?_⟩
    rcases Relations.resolve_eq_error hresolve with rfl | ⟨candidates, rfl⟩
    · cases hlocate
      exact .unplaceable hparent hresolve
    · cases hlocate
      exact .ambiguous hparent hresolve

/-- Looking at a deferred value takes no element. -/
theorem read_goesThrough {α : Type} {part : Weaving α} {relations : Relations}
    {occurrences : List Occurrence} (supplies : Supplies) (handle : Handle)
    (h : GoesThrough relations occurrences part) :
    GoesThrough relations occurrences (if (supplies.value? handle).isNone then do
          note fun log ↦ log.addPending handle
          part
        else part) := by
  split
  · exact (GoesThrough.note _).after fun _ ↦ h
  · exact h

/-- Below an element come the element and, inside it, those of its children. -/
theorem map_below_element (enclosing : List TypeName) (type : TypeName) (tag : Option String)
    (inside : List Occurrence) :
    ((⟨[], type, tag⟩ : Occurrence) :: inside.map (Occurrence.below [type])).map
        (Occurrence.below enclosing) =
      [⟨enclosing, type, tag⟩] ++ inside.map (Occurrence.below (enclosing ++ [type])) := by
  simp [Occurrence.below]

variable {context : Context}

mutual

/-- The stack of enclosing types goes in front of the chains that the node itself gives. -/
theorem weave_goesThrough (enclosing : List TypeName) (base : FieldPath) (document : Json) :
    ∀ node : Node, GoesThrough context.schema.relations
      ((node.occurrences context.supplies).map (Occurrence.below enclosing))
      (weave context enclosing base document node)
  | .fragment children => by
    rw [weave]
    exact weaveAll_goesThrough enclosing base document children
  | .element type props tag children => by
    rw [weave, Node.occurrences, map_below_element]
    refine (locate_goesThrough context.schema ⟨enclosing, type, tag⟩).bind fun relation ↦ ?_
    have hfields : FailsWith
        (settleWith ((context.schema.rulesOf type).expand context.marker props))
        Failure.IsWriting := FailsWith.settleWith fun _ ↦ FieldRules.isWriting_of_expand
    refine (GoesThrough.writing hfields).after fun fields ↦ ?_
    refine (weaveAll_goesThrough (enclosing ++ [type]) .root (.object fields) children).before
      fun value ↦ ?_
    exact .writing (putElement_failsWith relation base document value)
  | .literal path value isItem children => by
    rw [weave]
    refine (GoesThrough.writing (putLiteral_failsWith base path value isItem document)).after
      fun pair ↦ ?_
    exact weaveAll_goesThrough enclosing pair.1 pair.2 children
  | .transform rewrite children => by
    rw [weave]
    refine (weaveAll_goesThrough enclosing .root _ children).before fun scratch ↦ .writing ?_
    exact (FailsWith.written fun _ ↦ Json.isWriting_of_mergeAt).bind fun _ ↦ FailsWith.pure _
  | .component name script => by
    rw [weave]
    exact (GoesThrough.note _).after fun _ ↦
      weaveScript_goesThrough name enclosing base document script

theorem weaveAll_goesThrough (enclosing : List TypeName) (base : FieldPath) (document : Json) :
    ∀ nodes : List Node, GoesThrough context.schema.relations
      ((Node.allOccurrences context.supplies nodes).map (Occurrence.below enclosing))
      (weaveAll context enclosing base document nodes)
  | [] => GoesThrough.pure document
  | node :: rest => by
    rw [weaveAll, Node.allOccurrences, List.map_append]
    exact (weave_goesThrough enclosing base document node).bind fun document ↦
      weaveAll_goesThrough enclosing base document rest

theorem weaveScript_goesThrough (owner : String) (enclosing : List TypeName) (base : FieldPath)
    (document : Json) : ∀ script : Script, GoesThrough context.schema.relations
      ((script.occurrences context.supplies).map (Occurrence.below enclosing))
      (weaveScript context owner enclosing base document script)
  | .yield node => by
    rw [weaveScript]
    exact weave_goesThrough enclosing base document node
  | .suspend => by
    rw [weaveScript]
    exact (GoesThrough.note _).after fun _ ↦ GoesThrough.pure document
  | .read handle next => by
    rw [weaveScript]
    have hnext := weaveScript_goesThrough owner enclosing base document
      (next (context.supplies.value? handle))
    exact read_goesThrough context.supplies handle hnext
  | .require message check next => by
    rw [weaveScript]
    exact (GoesThrough.note _).after fun _ ↦
      weaveScript_goesThrough owner enclosing base document next

end

/-- Each document starts with no element around it. -/
theorem single_goesThrough (node : Node) : GoesThrough context.schema.relations
    (node.occurrences context.supplies) (do pure [← documentOf context node]) := by
  have hweave : GoesThrough context.schema.relations
      ((node.occurrences context.supplies).map (Occurrence.below []))
      (weave context [] .root .null node) := weave_goesThrough [] .root .null node
  have hids : Occurrence.below [] = id := rfl
  rw [hids, List.map_id] at hweave
  refine GoesThrough.before (hweave.before fun document ↦ ?_) fun _ ↦ GoesThrough.pure _
  split <;> exact GoesThrough.pure _

mutual

theorem collect_goesThrough : ∀ node : Node, GoesThrough context.schema.relations
    (node.occurrences context.supplies) (collect context node)
  | .fragment children => by
    rw [collect]
    exact collectAll_goesThrough children
  | .component name script => by
    rw [collect]
    exact (GoesThrough.note _).after fun _ ↦ collectScript_goesThrough name script
  | .element type props tag children => by
    rw [collect]
    exact single_goesThrough (.element type props tag children)
  | .literal path value isItem children => by
    rw [collect]
    exact single_goesThrough (.literal path value isItem children)
  | .transform rewrite children => by
    rw [collect]
    exact single_goesThrough (.transform rewrite children)

theorem collectAll_goesThrough : ∀ nodes : List Node, GoesThrough context.schema.relations
    (Node.allOccurrences context.supplies nodes) (collectAll context nodes)
  | [] => GoesThrough.pure []
  | node :: rest => by
    rw [collectAll, Node.allOccurrences]
    refine (collect_goesThrough node).bind fun front ↦ ?_
    exact (collectAll_goesThrough rest).before fun back ↦ GoesThrough.pure _

theorem collectScript_goesThrough (owner : String) : ∀ script : Script,
    GoesThrough context.schema.relations (script.occurrences context.supplies)
      (collectScript context owner script)
  | .yield node => by
    rw [collectScript]
    exact collect_goesThrough node
  | .suspend => by
    rw [collectScript]
    exact (GoesThrough.note _).after fun _ ↦ GoesThrough.pure []
  | .read handle next => by
    rw [collectScript]
    exact read_goesThrough context.supplies handle
      (collectScript_goesThrough owner (next (context.supplies.value? handle)))
  | .require message check next => by
    rw [collectScript]
    exact (GoesThrough.note _).after fun _ ↦ collectScript_goesThrough owner next

end

/-- A pass that fails for want of a place names the first element of the tree that does not resolve:
its type and tag, the types of the elements around it in its document, the outermost first, and the
innermost one of them, which has no place for it. Every element before it resolves or has none
around it. -/
theorem failed_placement_names_first {tree : Node} {failure : Failure} {log : PassLog}
    (h : pass context tree = (.error failure, log)) (hplacement : failure.IsPlacement) :
    NamesFirst context.schema.relations (tree.occurrences context.supplies) failure := by
  rcases (collect_goesThrough tree).fails PassLog.empty failure log h with hwriting | hnames
  · exact absurd hplacement hwriting.not_isPlacement
  · exact hnames

/-- A volume without a place, inside a container that a component renders below a transform in the
second document. The container of the first document, placed before it, is not in the chain. -/
theorem failed_placement_names_first_volume :
    let pod : TypeName := ⟨"Pod"⟩
    let volume : TypeName := ⟨"Volume"⟩
    let container : Relation := ⟨⟨"Container"⟩, pod, .ofKeys ["containers"], true, none⟩
    let relations : Relations := ⟨[(pod, [container])], [((pod, container.child), .only container)]⟩
    let schema : Schema := ⟨relations, [], default⟩
    let web : Node := .element container.child [] none [.element volume [] (some "data") []]
    let tree : Node := .fragment [
      .element pod [] none [.element container.child [] none []],
      .element pod [] none [.literal (.ofKeys ["spec"]) none false
        [.transform id [.component "web" (.yield web)]]]]
    let failure : Failure := .unplaceable container.child volume [pod, container.child]
    pass ⟨schema, "@", []⟩ tree = (.error failure, ⟨["web"], [], [], 0⟩) ∧ failure.IsPlacement ∧
      tree.occurrences [] = [⟨[], pod, none⟩, ⟨[pod], container.child, none⟩, ⟨[], pod, none⟩,
        ⟨[pod], container.child, none⟩, ⟨[pod, container.child], volume, some "data"⟩] ∧
      NamesFirst relations (tree.occurrences []) failure := by
  intro pod volume container relations schema web tree failure
  have hpass : pass ⟨schema, "@", []⟩ tree = (.error failure, ⟨["web"], [], [], 0⟩) := rfl
  have hplacement : failure.IsPlacement := .unplaceable _ _ _
  exact ⟨hpass, hplacement, rfl, failed_placement_names_first hpass hplacement⟩

end Compose
end ManifestTree
