import ManifestTree.Proofs.RunSteps
import ManifestTree.Proofs.Weaving

/-!
# Why a pass fails

A pass fails for one of two reasons. Something could not be written where it belongs: its place was
occupied, held a value of another sort, or could not be reached. Or an element of the tree has no
place: no relation, or no single one, leads from the type that encloses it to its own. The second
reason is read off the tree alone. No pass fails with anything that is told of whole runs only.
-/

namespace ManifestTree

namespace Failure

/-! ## Kinds of failures -/

/-- Something could not be written into a document. -/
inductive IsWriting : Failure → Prop where
  | occupied (path : FieldPath) : IsWriting (.occupied path)
  | mismatch (path : FieldPath) (expected : Multiplicity) (found : Kind) :
    IsWriting (.mismatch path expected found)
  | invalidPath (path : String) (fault : PathFault) : IsWriting (.invalidPath path fault)

/-- An element has no place below the types that enclose it. -/
inductive IsPlacement : Failure → Prop where
  | unplaceable (parent child : TypeName) (chain : List TypeName) :
    IsPlacement (.unplaceable parent child chain)
  | ambiguous (parent child : TypeName) (requested : Option String) (candidates : List String)
    (chain : List TypeName) : IsPlacement (.ambiguous parent child requested candidates chain)

theorem IsPlacement.withChain {failure : Failure} (h : failure.IsPlacement)
    (chain : List TypeName) : (failure.withChain chain).IsPlacement := by
  cases h with
  | unplaceable parent child _ => exact IsPlacement.unplaceable parent child chain
  | ambiguous parent child requested candidates _ =>
    exact IsPlacement.ambiguous parent child requested candidates chain

theorem IsWriting.not_isPlacement {failure : Failure} (h : failure.IsWriting) :
    ¬ failure.IsPlacement := by
  intro hplacement
  cases h <;> cases hplacement

end Failure

theorem Relations.isPlacement_of_resolve {relations : Relations} {parent child : TypeName}
    {tag : Option String} {failure : Failure}
    (h : relations.resolve parent child tag = .error failure) : failure.IsPlacement := by
  unfold resolve at h
  split at h
  · cases h
    exact .unplaceable parent child [parent]
  · split at h
    · cases h
    · cases h
      exact .ambiguous parent child tag _ [parent]

/-- Finding the place of an element fails just as its relation does not resolve. -/
theorem Compose.locate_eq_error {schema : Schema} {enclosing : List TypeName} {type : TypeName}
    {tag : Option String} {failure : Failure}
    (h : locate schema enclosing type tag = .error failure) :
    failure.IsPlacement ∧ ∃ parent fault, enclosing.getLast? = some parent ∧
      schema.relations.resolve parent type tag = .error fault := by
  unfold locate at h
  cases hlast : enclosing.getLast? with
  | none =>
    rw [hlast] at h
    cases h
  | some parent =>
    rw [hlast] at h
    dsimp only at h
    cases hresolve : schema.relations.resolve parent type tag with
    | ok relation =>
      rw [hresolve] at h
      cases h
    | error fault =>
      rw [hresolve] at h
      cases h
      exact ⟨(Relations.isPlacement_of_resolve hresolve).withChain enclosing, parent, fault, rfl,
        hresolve⟩

/-! ## Elements without a place -/

mutual

/-- Some element of the node, below the enclosing types, fails to find its place. -/
def Node.Misplaces (schema : Schema) (supplies : Supplies) (failure : Failure)
    (enclosing : List TypeName) : Node → Prop
  | .fragment children => Node.AnyMisplaces schema supplies failure enclosing children
  | .element type _ tag children =>
    Compose.locate schema enclosing type tag = .error failure ∨
      Node.AnyMisplaces schema supplies failure (enclosing ++ [type]) children
  | .literal _ _ _ children => Node.AnyMisplaces schema supplies failure enclosing children
  | .transform _ children => Node.AnyMisplaces schema supplies failure enclosing children
  | .component _ script => script.Misplaces schema supplies failure enclosing

/-- Some element of some of the nodes fails to find its place. -/
def Node.AnyMisplaces (schema : Schema) (supplies : Supplies) (failure : Failure)
    (enclosing : List TypeName) : List Node → Prop
  | [] => False
  | node :: rest =>
    node.Misplaces schema supplies failure enclosing ∨
      Node.AnyMisplaces schema supplies failure enclosing rest

/-- Some element of the tree that the script yields fails to find its place. -/
def Script.Misplaces (schema : Schema) (supplies : Supplies) (failure : Failure)
    (enclosing : List TypeName) : Script → Prop
  | .yield node => node.Misplaces schema supplies failure enclosing
  | .suspend => False
  | .read handle next => (next (supplies.value? handle)).Misplaces schema supplies failure enclosing
  | .require _ _ next => next.Misplaces schema supplies failure enclosing

end

section

variable {schema : Schema} {supplies : Supplies} {failure : Failure}

mutual

theorem Node.Misplaces.isPlacement : ∀ {enclosing : List TypeName} (node : Node),
    node.Misplaces schema supplies failure enclosing → failure.IsPlacement
  | _, .fragment children, h => Node.AnyMisplaces.isPlacement children h
  | _, .element _ _ _ children, h =>
    h.elim (fun hlocate ↦ (Compose.locate_eq_error hlocate).1)
      (Node.AnyMisplaces.isPlacement children)
  | _, .literal _ _ _ children, h => Node.AnyMisplaces.isPlacement children h
  | _, .transform _ children, h => Node.AnyMisplaces.isPlacement children h
  | _, .component _ script, h => Script.Misplaces.isPlacement script h

theorem Node.AnyMisplaces.isPlacement : ∀ {enclosing : List TypeName} (nodes : List Node),
    Node.AnyMisplaces schema supplies failure enclosing nodes → failure.IsPlacement
  | _, node :: rest, h =>
    h.elim (Node.Misplaces.isPlacement node) (Node.AnyMisplaces.isPlacement rest)

theorem Script.Misplaces.isPlacement : ∀ {enclosing : List TypeName} (script : Script),
    script.Misplaces schema supplies failure enclosing → failure.IsPlacement
  | _, .yield node, h => Node.Misplaces.isPlacement node h
  | _, .read handle next, h =>
    Script.Misplaces.isPlacement (next (supplies.value? handle)) h
  | _, .require _ _ next, h => Script.Misplaces.isPlacement next h

end

end

/-! ## Writing -/

namespace Json

/-- A walk fails as it cannot go on, or as its action fails. -/
theorem isWriting_of_walk {α : Type} {path : FieldPath} {action : Action α} {failure : Failure}
    (haction : ∀ place, (action place).1 = .error failure → failure.IsWriting) (rest : List Step) :
    ∀ taken place, (walk path action taken rest place).1 = .error failure →
      failure.IsWriting := by
  induction rest with
  | nil => exact fun _ place h ↦ haction place h
  | cons step rest ih =>
    intro taken place h
    cases step with
    | key name =>
      match place, h with
      | none, h => exact ih _ _ h
      | some (object members), h => exact ih _ _ h
      | some null, h | some (bool _), h | some (number _), h | some (string _), h
      | some (array _), h =>
        cases h
        exact .occupied ⟨taken⟩
    | index position =>
      match place, h with
      | some (array items), h =>
        rw [walk] at h
        dsimp only at h
        split at h
        · exact ih _ _ h
        · cases h
          exact .invalidPath path.text _
      | none, h | some null, h | some (bool _), h | some (number _), h | some (string _), h
      | some (object _), h =>
        cases h
        exact .mismatch ⟨taken⟩ .many _

theorem isWriting_of_set {document value : Json} {path : FieldPath} {failure : Failure}
    (h : (document.set path value).1 = .error failure) : failure.IsWriting := by
  refine isWriting_of_walk (fun place hplace ↦ ?_) _ _ _ h
  unfold fill at hplace
  split at hplace
  · cases hplace
  · cases hplace
    exact .mismatch path .single .array
  · cases hplace
    exact .occupied path

theorem isWriting_of_append {document value : Json} {path : FieldPath} {failure : Failure}
    (h : (document.append path value).1 = .error failure) : failure.IsWriting := by
  refine isWriting_of_walk (fun place hplace ↦ ?_) _ _ _ h
  unfold addItem at hplace
  split at hplace
  · cases hplace
  · cases hplace
  · cases hplace
    exact .mismatch path .many _

theorem isWriting_of_mergeAt {document value : Json} {path : FieldPath} {failure : Failure}
    (h : (document.mergeAt path value).1 = .error failure) : failure.IsWriting := by
  refine isWriting_of_walk (fun place hplace ↦ ?_) _ _ _ h
  cases hplace

end Json

namespace FieldRules

theorem isWriting_of_insertNew {members : Members} {key : String} {value : Json}
    {failure : Failure} (h : insertNew members key value = .error failure) :
    failure.IsWriting := by
  unfold insertNew at h
  split at h
  · cases h
    exact .occupied _
  · cases h

/-- A sequence fails with a failure of its first part or of what follows it. -/
theorem isWriting_of_bind {α β : Type} {part : Except Failure α} {next : α → Except Failure β}
    {failure : Failure} (hpart : ∀ failure, part = .error failure → failure.IsWriting)
    (hnext : ∀ answer failure, next answer = .error failure → failure.IsWriting)
    (h : (part >>= next) = .error failure) : failure.IsWriting := by
  cases part with
  | error fault =>
    cases h
    exact hpart failure rfl
  | ok answer => exact hnext answer failure h

theorem isWriting_of_insertAllNew (more : List (String × Json)) {members : Members}
    {failure : Failure} (h : insertAllNew members more = .error failure) : failure.IsWriting := by
  induction more generalizing members failure with
  | nil => cases h
  | cons entry rest ih =>
    exact isWriting_of_bind (fun _ ↦ isWriting_of_insertNew) (fun _ _ ↦ ih) h

theorem isWriting_of_distribute {rules : FieldRules} {marker : String}
    (props : List (String × Json)) {metadata fields : Members} {failure : Failure}
    (h : rules.distribute marker metadata fields props = .error failure) :
    failure.IsWriting := by
  induction props generalizing metadata fields failure with
  | nil => cases h
  | cons entry rest ih =>
    rw [distribute] at h
    split at h
    · exact isWriting_of_bind (fun _ ↦ isWriting_of_insertNew) (fun _ _ ↦ ih) h
    · split at h
      · exact isWriting_of_bind (fun _ ↦ isWriting_of_insertAllNew _) (fun _ _ ↦ ih) h
      · exact isWriting_of_bind (fun _ ↦ isWriting_of_insertNew) (fun _ _ ↦ ih) h

theorem isWriting_of_expand {rules : FieldRules} {marker : String} {props : Members}
    {failure : Failure} (h : rules.expand marker props = .error failure) : failure.IsWriting := by
  refine isWriting_of_bind (fun _ ↦ isWriting_of_distribute props) (fun pair failure h ↦ ?_) h
  dsimp only at h
  split at h
  · cases h
  · exact isWriting_of_insertAllNew _ h

end FieldRules

/-! ## Parts of a pass -/

namespace Weaving

variable {α β : Type} {kind other : Failure → Prop}

/-- Whenever the part fails, its failure is of the kind. -/
def FailsWith (part : Weaving α) (kind : Failure → Prop) : Prop :=
  ∀ log failure after, exec part log = (.error failure, after) → kind failure

theorem FailsWith.mono {part : Weaving α} (h : FailsWith part kind)
    (himp : ∀ failure, kind failure → other failure) : FailsWith part other :=
  fun log failure after hexec ↦ himp failure (h log failure after hexec)

theorem FailsWith.pure (answer : α) : FailsWith (Pure.pure answer) kind := by
  intro log failure after hexec
  cases hexec

theorem FailsWith.note (change : PassLog → PassLog) : FailsWith (Compose.note change) kind := by
  intro log failure after hexec
  cases hexec

theorem FailsWith.settleWith {outcome : Except Failure α}
    (h : ∀ failure, outcome = .error failure → kind failure) :
    FailsWith (Compose.settleWith outcome) kind := by
  intro log failure after hexec
  rw [exec_settleWith] at hexec
  exact h failure (congrArg Prod.fst hexec)

theorem FailsWith.written {result : Except Failure α × Json}
    (h : ∀ failure, result.1 = .error failure → kind failure) :
    FailsWith (Compose.written result) kind := by
  apply FailsWith.settleWith
  intro failure hmap
  rcases result with ⟨fault | answer, document⟩
  · cases hmap
    exact h failure rfl
  · cases hmap

theorem FailsWith.bind {part : Weaving α} {next : α → Weaving β} (h : FailsWith part kind)
    (hnext : ∀ answer, FailsWith (next answer) kind) : FailsWith (part >>= next) kind := by
  intro log failure after hexec
  rcases hpart : exec part log with ⟨fault | answer, middle⟩
  · rw [exec_bind_of_error hpart] at hexec
    cases hexec
    exact h log failure after hpart
  · rw [exec_bind_of_ok hpart] at hexec
    exact hnext answer middle failure after hexec

end Weaving

namespace Compose

open Weaving

theorem putElement_failsWith (relation : Option Relation) (base : FieldPath)
    (document value : Json) :
    FailsWith (putElement relation base document value) Failure.IsWriting := by
  unfold putElement
  split
  · exact (FailsWith.written fun _ ↦ Json.isWriting_of_mergeAt).bind fun _ ↦ FailsWith.pure _
  · dsimp only
    split
    · exact (FailsWith.written fun _ ↦ Json.isWriting_of_append).bind fun _ ↦ FailsWith.pure _
    · exact (FailsWith.written fun _ ↦ Json.isWriting_of_set).bind fun _ ↦ FailsWith.pure _

theorem putLiteral_failsWith (base path : FieldPath) (value : Option Json) (isItem : Bool)
    (document : Json) :
    FailsWith (putLiteral base path value isItem document) Failure.IsWriting := by
  unfold putLiteral
  dsimp only
  split
  · exact (FailsWith.written fun _ ↦ Json.isWriting_of_append).bind fun _ ↦ FailsWith.pure _
  · split
    · exact (FailsWith.written fun _ ↦ Json.isWriting_of_set).bind fun _ ↦ FailsWith.pure _
    · exact FailsWith.pure _

/-- Looking at a deferred value never fails. -/
theorem read_failsWith {α : Type} {part : Weaving α} {kind : Failure → Prop}
    (supplies : Supplies) (handle : Handle) (h : FailsWith part kind) :
    FailsWith (if (supplies.value? handle).isNone then do
          note fun log ↦ log.addPending handle
          part
        else part) kind := by
  split
  · exact (FailsWith.note _).bind fun _ ↦ h
  · exact h

variable {context : Context}

mutual

/-- Composing a node fails because something could not be written, or because an element of the
node has no place. -/
theorem weave_failsWith (enclosing : List TypeName) (base : FieldPath) (document : Json) :
    ∀ node : Node, FailsWith (weave context enclosing base document node) fun failure ↦
      failure.IsWriting ∨ node.Misplaces context.schema context.supplies failure enclosing
  | .fragment children => by
    rw [weave]
    exact weaveAll_failsWith enclosing base document children
  | .element type props tag children => by
    rw [weave]
    refine FailsWith.bind (FailsWith.settleWith fun _ h ↦ Or.inr (Or.inl h)) fun relation ↦ ?_
    refine FailsWith.bind (FailsWith.settleWith fun _ h ↦ Or.inl ?_) fun fields ↦ ?_
    · exact FieldRules.isWriting_of_expand h
    · have hchildren := weaveAll_failsWith (enclosing ++ [type]) FieldPath.root (.object fields)
        children
      refine (hchildren.mono fun _ h ↦ h.imp_right Or.inr).bind fun value ↦ ?_
      exact (putElement_failsWith relation base document value).mono fun _ ↦ Or.inl
  | .literal path value isItem children => by
    rw [weave]
    refine ((putLiteral_failsWith _ _ _ _ _).mono fun _ ↦ Or.inl).bind fun pair ↦ ?_
    exact weaveAll_failsWith enclosing pair.1 pair.2 children
  | .transform rewrite children => by
    rw [weave]
    refine (weaveAll_failsWith enclosing FieldPath.root _ children).bind fun scratch ↦ ?_
    refine (FailsWith.written fun _ h ↦ Or.inl ?_).bind fun _ ↦ FailsWith.pure _
    exact Json.isWriting_of_mergeAt h
  | .component name script => by
    rw [weave]
    exact (FailsWith.note _).bind fun _ ↦ weaveScript_failsWith name enclosing base document script

theorem weaveAll_failsWith (enclosing : List TypeName) (base : FieldPath) (document : Json) :
    ∀ nodes : List Node, FailsWith (weaveAll context enclosing base document nodes) fun failure ↦
      failure.IsWriting ∨ Node.AnyMisplaces context.schema context.supplies failure enclosing nodes
  | [] => FailsWith.pure document
  | node :: rest => by
    rw [weaveAll]
    have hnode := weave_failsWith enclosing base document node
    refine (hnode.mono fun _ h ↦ h.imp_right Or.inl).bind fun document ↦ ?_
    exact (weaveAll_failsWith enclosing base document rest).mono fun _ h ↦ h.imp_right Or.inr

theorem weaveScript_failsWith (owner : String) (enclosing : List TypeName) (base : FieldPath)
    (document : Json) : ∀ script : Script,
      FailsWith (weaveScript context owner enclosing base document script) fun failure ↦
        failure.IsWriting ∨ script.Misplaces context.schema context.supplies failure enclosing
  | .yield node => by
    rw [weaveScript]
    exact weave_failsWith enclosing base document node
  | .suspend => by
    rw [weaveScript]
    exact (FailsWith.note _).bind fun _ ↦ FailsWith.pure document
  | .read handle next => by
    rw [weaveScript]
    exact read_failsWith context.supplies handle
      (weaveScript_failsWith owner enclosing base document (next (context.supplies.value? handle)))
  | .require message check next => by
    rw [weaveScript]
    exact (FailsWith.note _).bind fun _ ↦ weaveScript_failsWith owner enclosing base document next

end

theorem single_failsWith (node : Node) :
    FailsWith (do pure [← documentOf context node]) fun failure ↦
      failure.IsWriting ∨ node.Misplaces context.schema context.supplies failure [] := by
  have hdocument : FailsWith (documentOf context node) fun failure ↦
      failure.IsWriting ∨ node.Misplaces context.schema context.supplies failure [] := by
    refine (weave_failsWith [] FieldPath.root .null node).bind fun document ↦ ?_
    split <;> exact FailsWith.pure _
  exact hdocument.bind fun _ ↦ FailsWith.pure _

mutual

theorem collect_failsWith : ∀ node : Node, FailsWith (collect context node) fun failure ↦
      failure.IsWriting ∨ node.Misplaces context.schema context.supplies failure []
  | .fragment children => by
    rw [collect]
    exact collectAll_failsWith children
  | .component name script => by
    rw [collect]
    exact (FailsWith.note _).bind fun _ ↦ collectScript_failsWith name script
  | .element type props tag children => by
    rw [collect]
    exact single_failsWith (.element type props tag children)
  | .literal path value isItem children => by
    rw [collect]
    exact single_failsWith (.literal path value isItem children)
  | .transform rewrite children => by
    rw [collect]
    exact single_failsWith (.transform rewrite children)

theorem collectAll_failsWith : ∀ nodes : List Node,
    FailsWith (collectAll context nodes) fun failure ↦
      failure.IsWriting ∨ Node.AnyMisplaces context.schema context.supplies failure [] nodes
  | [] => FailsWith.pure []
  | node :: rest => by
    rw [collectAll]
    refine ((collect_failsWith node).mono fun _ h ↦ h.imp_right Or.inl).bind fun front ↦ ?_
    refine FailsWith.bind ?_ fun back ↦ FailsWith.pure _
    exact (collectAll_failsWith rest).mono fun _ h ↦ h.imp_right Or.inr

theorem collectScript_failsWith (owner : String) : ∀ script : Script,
    FailsWith (collectScript context owner script) fun failure ↦
      failure.IsWriting ∨ script.Misplaces context.schema context.supplies failure []
  | .yield node => by
    rw [collectScript]
    exact collect_failsWith node
  | .suspend => by
    rw [collectScript]
    exact (FailsWith.note _).bind fun _ ↦ FailsWith.pure []
  | .read handle next => by
    rw [collectScript]
    exact read_failsWith context.supplies handle
      (collectScript_failsWith owner (next (context.supplies.value? handle)))
  | .require message check next => by
    rw [collectScript]
    exact (FailsWith.note _).bind fun _ ↦ collectScript_failsWith owner next

end

/-- A pass fails because something could not be written, or because an element has no place. -/
theorem pass_eq_error {tree : Node} {failure : Failure} {log : PassLog}
    (h : pass context tree = (.error failure, log)) :
    failure.IsWriting ∨ tree.Misplaces context.schema context.supplies failure [] :=
  collect_failsWith tree PassLog.empty failure log h

/-- Composing in a single pass fails as the pass does, or because components gave up, or because
requirements do not hold. -/
theorem compose_eq_error {tree : Node} {failure : Failure}
    (h : compose context tree = .error failure) :
    failure.IsWriting ∨ tree.Misplaces context.schema context.supplies failure [] ∨
      (∃ count, failure = .unsettled count) ∨ ∃ failures, failure = .requirements failures := by
  unfold compose at h
  rcases hpass : pass context tree with ⟨fault | documents, log⟩
  · rw [hpass] at h
    cases h
    exact (pass_eq_error hpass).imp_right Or.inl
  · rw [hpass] at h
    dsimp only at h
    rw [finalize_eq] at h
    split at h
    · cases h
      exact Or.inr (Or.inr (Or.inl ⟨log.suspended, rfl⟩))
    · split at h
      · next hbatch =>
        cases h
        unfold Failure.batch? at hbatch
        split at hbatch
        · cases hbatch
        · cases hbatch
          exact Or.inr (Or.inr (Or.inr ⟨_, rfl⟩))
      · cases h

end Compose
end ManifestTree
