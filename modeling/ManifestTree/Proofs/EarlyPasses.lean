import ManifestTree.Proofs.ArrivalOrder
import ManifestTree.Proofs.DeclaredRelations
import ManifestTree.Proofs.PartialDocuments
import ManifestTree.Proofs.Placement

/-!
# Passes before every value has arrived

A pass in which some components give up builds parts of the documents that it builds once every
value is there. So it succeeds whenever the late pass does: a place that is vacant in the whole is
vacant in its part, and an array is an array or not there yet. Waiting for values can then end a run
only through what settling itself reports, and never through a child or a value without a place. The
argument needs elements at the top of the tree, no transforms, and keys alone in the paths of
literals and relations.
-/

namespace ManifestTree

/-! ## Trees whose parts stay parts -/

mutual

/-- Literals have paths of keys, in the components as they render with these supplies. -/
def Node.KeyPaths (supplies : Supplies) : Node → Prop
  | .fragment children => Node.AllKeyPaths supplies children
  | .element _ _ _ children => Node.AllKeyPaths supplies children
  | .literal path _ _ children => path.keysOnly ∧ Node.AllKeyPaths supplies children
  | .transform _ children => Node.AllKeyPaths supplies children
  | .component _ script => script.KeyPaths supplies

/-- Literals have paths of keys in each of the nodes. -/
def Node.AllKeyPaths (supplies : Supplies) : List Node → Prop
  | [] => True
  | node :: rest => node.KeyPaths supplies ∧ Node.AllKeyPaths supplies rest

/-- Literals have paths of keys in the tree that the script yields, if any. -/
def Script.KeyPaths (supplies : Supplies) : Script → Prop
  | .yield node => node.KeyPaths supplies
  | .suspend => True
  | .read handle next => (next (supplies.value? handle)).KeyPaths supplies
  | .require _ _ next => next.KeyPaths supplies

end

mutual

/-- Every document of the tree is that of an element. -/
def Node.ElementsOnTop (supplies : Supplies) : Node → Prop
  | .fragment children => Node.AllElementsOnTop supplies children
  | .element _ _ _ _ => True
  | .literal _ _ _ _ => False
  | .transform _ _ => False
  | .component _ script => script.ElementsOnTop supplies

/-- Every document of the nodes is that of an element. -/
def Node.AllElementsOnTop (supplies : Supplies) : List Node → Prop
  | [] => True
  | node :: rest => node.ElementsOnTop supplies ∧ Node.AllElementsOnTop supplies rest

/-- Every document of the tree that the script yields is that of an element. -/
def Script.ElementsOnTop (supplies : Supplies) : Script → Prop
  | .yield node => node.ElementsOnTop supplies
  | .suspend => True
  | .read handle next => (next (supplies.value? handle)).ElementsOnTop supplies
  | .require _ _ next => next.ElementsOnTop supplies

end

def Relations.KeyPaths (relations : Relations) : Prop :=
  ∀ parent child tag relation, relations.resolve parent child tag = .ok relation →
    relation.path.keysOnly

theorem Relation.normalize_path (relation : Relation) :
    relation.normalize.path = relation.path := by
  unfold normalize
  split <;> rfl

theorem Relations.keyPaths_of_ofList {declared : List Relation} {relations : Relations}
    (h : ofList declared = .ok relations) (hkeys : ∀ relation ∈ declared, relation.path.keysOnly) :
    relations.KeyPaths := by
  intro parent child tag relation hresolve
  have hmem : relation ∈ ofPair declared parent child :=
    ((resolve_eq_ok_iff h parent child tag relation).mp hresolve).1
  obtain ⟨original, horiginal, rfl⟩ := List.mem_map.mp (List.mem_filter.mp hmem).1
  rw [Relation.normalize_path]
  exact hkeys original horiginal

theorem Relations.KeyPaths.of_locate {schema : Schema} (h : schema.relations.KeyPaths)
    {enclosing : List TypeName} {type : TypeName} {tag : Option String} {relation : Relation}
    (hlocate : Compose.locate schema enclosing type tag = .ok (some relation)) :
    relation.path.keysOnly := by
  unfold Compose.locate at hlocate
  split at hlocate
  · cases hlocate
  · next parent _ =>
    cases hresolve : schema.relations.resolve parent type tag with
    | error failure =>
      rw [hresolve] at hlocate
      cases hlocate
    | ok found =>
      rw [hresolve] at hlocate
      cases hlocate
      exact h parent type tag relation hresolve

/-! ## Parts that succeed alike -/

namespace Weaving

variable {α β γ δ : Type}

/-- Where the late part succeeds, so does the early one, with a related answer and whatever the
logs. -/
def SucceedsLike (R : α → β → Prop) (early : Weaving α) (late : Weaving β) : Prop :=
  ∀ log other answer after, exec late log = (.ok answer, after) →
    ∃ result left, exec early other = (.ok result, left) ∧ R result answer

theorem SucceedsLike.pure {R : α → β → Prop} {answer : α} {other : β} (h : R answer other) :
    SucceedsLike R (Pure.pure answer) (Pure.pure other) := by
  intro log left result after hexec
  cases hexec
  exact ⟨answer, left, rfl, h⟩

theorem SucceedsLike.bind {R : α → β → Prop} {S : γ → δ → Prop} {early : Weaving α}
    {late : Weaving β} {next : α → Weaving γ} {after : β → Weaving δ}
    (h : SucceedsLike R early late)
    (hnext : ∀ answer other, R answer other → SucceedsLike S (next answer) (after other)) :
    SucceedsLike S (early >>= next) (late >>= after) := by
  intro log left answer last hexec
  obtain ⟨first, middle, hlate, hafter⟩ := exec_bind_eq_ok_iff.mp hexec
  obtain ⟨result, middle', hearly, hR⟩ := h log left first middle hlate
  obtain ⟨value, last', hvalue, hS⟩ := hnext result first hR middle middle' answer last hafter
  exact ⟨value, last', (exec_bind_of_ok hearly next).trans hvalue, hS⟩

theorem SucceedsLike.imp {R S : α → β → Prop} {early : Weaving α} {late : Weaving β}
    (h : SucceedsLike R early late) (himp : ∀ answer other, R answer other → S answer other) :
    SucceedsLike S early late := by
  intro log left answer after hexec
  obtain ⟨result, last, hearly, hR⟩ := h log left answer after hexec
  exact ⟨result, last, hearly, himp result answer hR⟩

theorem SucceedsLike.settleWith (outcome : Except Failure α) :
    SucceedsLike (fun answer other ↦ answer = other ∧ outcome = .ok other)
      (Compose.settleWith outcome) (Compose.settleWith outcome) := by
  intro log left answer after hexec
  rw [exec_settleWith, Prod.mk.injEq] at hexec
  obtain ⟨rfl, rfl⟩ := hexec
  exact ⟨answer, left, exec_settleWith _ left, rfl, rfl⟩

theorem SucceedsLike.note (change : PassLog → PassLog) :
    SucceedsLike (fun _ _ ↦ True) (Compose.note change) (Compose.note change) :=
  fun _ left _ _ _ ↦ ⟨(), change left, rfl, trivial⟩

theorem SucceedsLike.written {R : α × Json → β × Json → Prop} {early : Except Failure α × Json}
    {late : Except Failure β × Json}
    (h : ∀ answer after, late = (.ok answer, after) →
      ∃ value left, early = (.ok value, left) ∧ R (value, left) (answer, after)) :
    SucceedsLike R (Compose.written early) (Compose.written late) := by
  rintro log other ⟨answer, document⟩ after hexec
  obtain ⟨rfl, rfl⟩ := Compose.exec_written_eq_ok hexec
  obtain ⟨value, left, rfl, hR⟩ := h answer document rfl
  exact ⟨(value, left), other, exec_written _ other, hR⟩

end Weaving

namespace Compose

open Weaving Json

/-! ## Documents in step -/

/-- The early document is part of the late one, and the two bases lead to the same place. -/
structure InStep (base other : FieldPath) (part whole : Json) : Prop where
  nonempty : whole ≠ null
  aligned : Aligned base.steps other.steps (some part) (some whole)

namespace InStep

variable {base other path : FieldPath} {part whole : Json}

theorem root (h : part.PartOf whole) (hwhole : whole ≠ null) :
    InStep FieldPath.root FieldPath.root part whole :=
  ⟨hwhole, .here (Place.PartOf.of_some h)⟩

theorem partOf (h : InStep base other part whole) : part.PartOf whole := by
  obtain ⟨_, heq, hpart⟩ := h.aligned.partOf part rfl
  cases heq
  exact hpart

theorem part_ne_null (h : InStep base other part whole) : part ≠ null := by
  rintro rfl
  cases h.partOf
  exact h.nonempty rfl

/-- What the late pass adds does not matter. -/
theorem extend (h : InStep base other part whole) {later : Json} (hlater : whole.ExtendedBy later) :
    InStep base other part later :=
  ⟨hlater.ne_null h.nonempty, h.aligned.extend (Place.Grows.of_some hlater)⟩

/-- The same keys lead on to the same place. -/
theorem join (h : InStep base other part whole) (hpath : path.keysOnly) :
    InStep (base.join path) (other.join path) part whole :=
  ⟨h.nonempty, h.aligned.append_keys hpath⟩

/-- Bases on the way are in step, too. -/
theorem of_prefix {inner outer : FieldPath} (h : InStep inner outer part whole)
    (hbase : base.steps <+: inner.steps) (hother : other.steps <+: outer.steps)
    (hlength : base.steps.length = other.steps.length) : InStep base other part whole := by
  obtain ⟨more, hmore⟩ := hbase
  obtain ⟨last, hlast⟩ := hother
  have haligned := h.aligned
  rw [← hmore, ← hlast] at haligned
  exact ⟨h.nonempty, haligned.of_append hlength⟩

theorem set (h : InStep base other part whole) (hpath : path.keysOnly) {value late after : Json}
    (hvalue : value.PartOf late) (hset : whole.set (other.join path) late = (.ok (), after)) :
    ∃ left, part.set (base.join path) value = (.ok (), left) ∧
      InStep (base.join path) (other.join path) left after := by
  have hgrows := (set_extendedBy h.nonempty hset).1
  obtain ⟨_, left, hwrite, haligned⟩ := write_aligned
    (fill_parallel hvalue (base.join path) (other.join path)) h.part_ne_null h.nonempty
    (h.join hpath).aligned hset
  rw [List.append_nil, List.append_nil] at haligned
  exact ⟨left, hwrite, hgrows.ne_null h.nonempty, haligned⟩

theorem append (h : InStep base other part whole) (hpath : path.keysOnly) {value late after : Json}
    {answer : Nat} (hvalue : value.PartOf late)
    (happend : whole.append (other.join path) late = (.ok answer, after)) :
    ∃ position left, part.append (base.join path) value = (.ok position, left) ∧
      InStep ((base.join path).index position) ((other.join path).index answer) left after := by
  have hgrows := (append_extendedBy h.nonempty happend).1
  obtain ⟨position, left, hwrite, haligned⟩ := write_aligned
    (addItem_parallel hvalue (base.join path) (other.join path)) h.part_ne_null h.nonempty
    (h.join hpath).aligned happend
  exact ⟨position, left, hwrite, hgrows.ne_null h.nonempty, haligned⟩

/-- Behind a place that comes behind both bases, the bases are in step. -/
theorem outer {left after : Json} (h : InStep base other part whole) {inner last : FieldPath}
    (hinner : InStep inner last left after) (hbase : base.steps <+: inner.steps)
    (hother : other.steps <+: last.steps) : InStep base other left after :=
  hinner.of_prefix hbase hother h.aligned.length_eq

end InStep

theorem prefix_join (base path : FieldPath) : base.steps <+: (base.join path).steps :=
  List.prefix_append _ _

theorem prefix_index (base path : FieldPath) (position : Nat) :
    base.steps <+: ((base.join path).index position).steps :=
  (prefix_join base path).trans (List.prefix_append _ _)

section Writers

variable {base other path : FieldPath} {document full : Json}

theorem putElement_succeedsLike {relation : Relation} {value late : Json}
    (h : InStep base other document full) (hkeys : relation.path.keysOnly)
    (hvalue : value.PartOf late) :
    SucceedsLike (InStep base other) (putElement (some relation) base document value)
      (putElement (some relation) other full late) := by
  unfold putElement
  dsimp only
  cases relation.isMany with
  | true =>
    rw [if_pos rfl, if_pos rfl]
    refine SucceedsLike.bind (SucceedsLike.written (R := fun x y ↦ InStep base other x.2 y.2) ?_)
      fun _ _ hstep ↦ SucceedsLike.pure hstep
    intro answer after happend
    obtain ⟨position, left, heq, hstep⟩ := h.append hkeys hvalue happend
    exact ⟨position, left, heq, h.outer hstep (prefix_index _ _ _) (prefix_index _ _ _)⟩
  | false =>
    rw [if_neg Bool.false_ne_true, if_neg Bool.false_ne_true]
    refine SucceedsLike.bind (SucceedsLike.written (R := fun x y ↦ InStep base other x.2 y.2) ?_)
      fun _ _ hstep ↦ SucceedsLike.pure hstep
    intro _ after hset
    obtain ⟨left, heq, hstep⟩ := h.set hkeys hvalue hset
    exact ⟨(), left, heq, h.outer hstep (prefix_join _ _) (prefix_join _ _)⟩

theorem putLiteral_succeedsLike (h : InStep base other document full) (hkeys : path.keysOnly)
    (value : Option Json) (isItem : Bool) :
    SucceedsLike (fun x y ↦ InStep x.1 y.1 x.2 y.2 ∧ base.steps <+: x.1.steps ∧
        other.steps <+: y.1.steps)
      (putLiteral base path value isItem document) (putLiteral other path value isItem full) := by
  unfold putLiteral
  dsimp only
  cases isItem with
  | true =>
    rw [if_pos rfl, if_pos rfl]
    refine SucceedsLike.bind (SucceedsLike.written (R := fun x y ↦
      InStep ((base.join path).index x.1) ((other.join path).index y.1) x.2 y.2) ?_)
      fun _ _ hstep ↦ SucceedsLike.pure ⟨hstep, prefix_index _ _ _, prefix_index _ _ _⟩
    intro answer after happend
    exact h.append hkeys (PartOf.refl _) happend
  | false =>
    rw [if_neg Bool.false_ne_true, if_neg Bool.false_ne_true]
    cases value with
    | none => exact SucceedsLike.pure ⟨h.join hkeys, prefix_join _ _, prefix_join _ _⟩
    | some value =>
      refine SucceedsLike.bind (SucceedsLike.written (R := fun x y ↦
        InStep (base.join path) (other.join path) x.2 y.2) ?_)
        fun _ _ hstep ↦ SucceedsLike.pure ⟨hstep, prefix_join _ _, prefix_join _ _⟩
      intro _ after hset
      obtain ⟨left, heq, hstep⟩ := h.set hkeys (PartOf.refl value) hset
      exact ⟨(), left, heq, hstep⟩

end Writers

/-- Inside an element, a component that gives up for now is in step with what it adds later. -/
theorem weaveScript_succeedsLike_of_givesUp {early late : Context} {owner : String}
    {enclosing : List TypeName} {base other : FieldPath} {document full : Json}
    {script twin : Script} (henclosing : enclosing ≠ []) (h : InStep base other document full)
    (hgivesUp : script.GivesUp early.supplies) (hfree : twin.TransformFree late.supplies) :
    SucceedsLike (InStep base other)
      (weaveScript early owner enclosing base document script)
      (weaveScript late owner enclosing other full twin) := by
  intro log left result after hexec
  obtain ⟨last, hearly, -⟩ :=
    exec_weaveScript_of_givesUp early owner enclosing base document script hgivesUp left
  obtain ⟨placed, htraced⟩ := exec_weaveScriptTraced hexec
  have hrecorded := weaveScriptTraced_records late owner twin hfree enclosing other full henclosing
    h.nonempty log result placed after htraced
  exact ⟨document, last, hearly, h.extend hrecorded.grows⟩

/-! ## Early and late passes -/

section Passes

variable {schema : Schema} {marker : String} {early late : Supplies}

mutual

theorem weave_succeedsLike (hrelations : schema.relations.KeyPaths)
    (hearlier : Supplies.Earlier early late) : ∀ (node : Node), node.Strict early →
    node.TransformFree late → node.KeyPaths late → ∀ (enclosing : List TypeName)
    {base other : FieldPath} {document full : Json}, enclosing ≠ [] →
    InStep base other document full →
    SucceedsLike (InStep base other) (weave ⟨schema, marker, early⟩ enclosing base document node)
      (weave ⟨schema, marker, late⟩ enclosing other full node)
  | .fragment children, hstrict, hfree, hpaths, enclosing, base, other, document, full, henclosing,
      h => by
    rw [weave, weave]
    exact weaveAll_succeedsLike hrelations hearlier children hstrict hfree hpaths enclosing
      henclosing h
  | .element type props tag children, hstrict, hfree, hpaths, enclosing, base, other, document,
      full, henclosing, h => by
    rw [weave, weave]
    refine (SucceedsLike.settleWith _).bind fun relation _ hrelation ↦ ?_
    obtain ⟨rfl, hlocate⟩ := hrelation
    obtain ⟨found, rfl⟩ := locate_eq_some henclosing hlocate
    refine (SucceedsLike.settleWith _).bind fun fields _ hfields ↦ ?_
    obtain ⟨rfl, -⟩ := hfields
    refine SucceedsLike.bind (weaveAll_succeedsLike hrelations hearlier children hstrict hfree
      hpaths (enclosing ++ [type]) (by simp) (InStep.root (PartOf.refl _) (by simp)))
      fun value whole hvalue ↦ ?_
    exact putElement_succeedsLike h (hrelations.of_locate hlocate) hvalue.partOf
  | .literal path value isItem children, hstrict, hfree, hpaths, enclosing, base, other, document,
      full, henclosing, h => by
    rw [weave, weave]
    apply SucceedsLike.bind (putLiteral_succeedsLike h hpaths.1 value isItem)
    rintro ⟨inner, left⟩ ⟨outer, after⟩ ⟨hstep, hbase, hother⟩
    refine (weaveAll_succeedsLike hrelations hearlier children hstrict hfree hpaths.2 enclosing
      henclosing hstep).imp fun _ _ hlast ↦ ?_
    exact h.outer hlast hbase hother
  | .transform _ _, _, hfree, _, _, _, _, _, _, _, _ => hfree.elim
  | .component name script, hstrict, hfree, hpaths, enclosing, base, other, document, full,
      henclosing, h => by
    rw [weave, weave]
    refine (SucceedsLike.note _).bind fun _ _ _ ↦ ?_
    exact weaveScript_succeedsLike hrelations hearlier name script hstrict hfree hpaths enclosing
      henclosing h

theorem weaveAll_succeedsLike (hrelations : schema.relations.KeyPaths)
    (hearlier : Supplies.Earlier early late) : ∀ (nodes : List Node), Node.AllStrict early nodes →
    Node.AllTransformFree late nodes → Node.AllKeyPaths late nodes → ∀ (enclosing : List TypeName)
    {base other : FieldPath} {document full : Json}, enclosing ≠ [] →
    InStep base other document full →
    SucceedsLike (InStep base other)
      (weaveAll ⟨schema, marker, early⟩ enclosing base document nodes)
      (weaveAll ⟨schema, marker, late⟩ enclosing other full nodes)
  | [], _, _, _, _, _, _, _, _, _, h => SucceedsLike.pure h
  | node :: rest, hstrict, hfree, hpaths, enclosing, base, other, document, full, henclosing,
      h => by
    rw [weaveAll, weaveAll]
    refine SucceedsLike.bind (weave_succeedsLike hrelations hearlier node hstrict.1 hfree.1
      hpaths.1 enclosing henclosing h) fun left after hstep ↦ ?_
    exact weaveAll_succeedsLike hrelations hearlier rest hstrict.2 hfree.2 hpaths.2 enclosing
      henclosing hstep

theorem weaveScript_succeedsLike (hrelations : schema.relations.KeyPaths)
    (hearlier : Supplies.Earlier early late) (owner : String) : ∀ (script : Script),
    script.Strict early → script.TransformFree late → script.KeyPaths late →
    ∀ (enclosing : List TypeName) {base other : FieldPath} {document full : Json},
    enclosing ≠ [] → InStep base other document full →
    SucceedsLike (InStep base other)
      (weaveScript ⟨schema, marker, early⟩ owner enclosing base document script)
      (weaveScript ⟨schema, marker, late⟩ owner enclosing other full script)
  | .yield node, hstrict, hfree, hpaths, enclosing, base, other, document, full, henclosing,
      h => by
    rw [weaveScript, weaveScript]
    exact weave_succeedsLike hrelations hearlier node hstrict hfree hpaths enclosing henclosing h
  | .suspend, _, _, _, enclosing, base, other, document, full, _, h => by
    rw [weaveScript, weaveScript]
    exact (SucceedsLike.note _).bind fun _ _ _ ↦ SucceedsLike.pure h
  | .read handle next, hstrict, hfree, hpaths, enclosing, base, other, document, full, henclosing,
      h => by
    cases hvalue : early.value? handle with
    | none =>
      exact weaveScript_succeedsLike_of_givesUp henclosing h
        (givesUp_of_missing hvalue (hstrict.1 hvalue)) hfree
    | some value =>
      have hlate : late.value? handle = some value := hearlier handle value hvalue
      have ih := weaveScript_succeedsLike hrelations hearlier owner (next (early.value? handle))
        hstrict.2 (by rw [hvalue, ← hlate]; exact hfree) (by rw [hvalue, ← hlate]; exact hpaths)
        enclosing henclosing h
      rw [hvalue] at ih
      rw [weaveScript_read_of_some (show (Context.mk schema marker early).supplies.value? handle =
          some value from hvalue),
        weaveScript_read_of_some (show (Context.mk schema marker late).supplies.value? handle =
          some value from hlate)]
      exact ih
  | .require message check next, hstrict, hfree, hpaths, enclosing, base, other, document, full,
      henclosing, h => by
    rw [weaveScript, weaveScript]
    refine (SucceedsLike.note _).bind fun _ _ _ ↦ ?_
    exact weaveScript_succeedsLike hrelations hearlier owner next hstrict hfree hpaths enclosing
      henclosing h

end

/-- Outside every element, an element is laid over nothing, which never fails. -/
theorem exec_putElement_of_top (value : Json) (log : PassLog) :
    ∃ result, exec (putElement none .root .null value) log = (.ok result, log) :=
  ⟨_, rfl⟩

theorem documentOf_succeedsLike (hrelations : schema.relations.KeyPaths)
    (hearlier : Supplies.Earlier early late) {type : TypeName} {props : Members}
    {tag : Option String} {children : List Node} (hstrict : Node.AllStrict early children)
    (hfree : Node.AllTransformFree late children) (hpaths : Node.AllKeyPaths late children) :
    SucceedsLike (fun _ _ ↦ True)
      (documentOf ⟨schema, marker, early⟩ (.element type props tag children))
      (documentOf ⟨schema, marker, late⟩ (.element type props tag children)) := by
  have hweave : SucceedsLike (fun _ _ ↦ True)
      (weave ⟨schema, marker, early⟩ [] .root .null (.element type props tag children))
      (weave ⟨schema, marker, late⟩ [] .root .null (.element type props tag children)) := by
    rw [weave, weave]
    refine (SucceedsLike.settleWith _).bind fun relation _ hrelation ↦ ?_
    obtain ⟨rfl, hlocate⟩ := hrelation
    cases hlocate
    refine (SucceedsLike.settleWith _).bind fun fields _ hfields ↦ ?_
    obtain ⟨rfl, -⟩ := hfields
    refine SucceedsLike.bind (weaveAll_succeedsLike hrelations hearlier children hstrict hfree
      hpaths [type] (by simp) (InStep.root (PartOf.refl _) (by simp))) fun value _ _ ↦ ?_
    intro _ other _ _ _
    obtain ⟨result, hresult⟩ := exec_putElement_of_top value other
    exact ⟨result, other, hresult, trivial⟩
  unfold documentOf
  refine hweave.bind fun document full _ ↦ ?_
  split <;> split <;> exact SucceedsLike.pure trivial

mutual

theorem collect_succeedsLike (hrelations : schema.relations.KeyPaths)
    (hearlier : Supplies.Earlier early late) : ∀ node : Node, node.Strict early →
    node.ElementsOnTop late → node.TransformFree late → node.KeyPaths late →
    SucceedsLike (fun _ _ ↦ True) (collect ⟨schema, marker, early⟩ node)
      (collect ⟨schema, marker, late⟩ node)
  | .fragment children, hstrict, htop, hfree, hpaths => by
    rw [collect, collect]
    exact collectAll_succeedsLike hrelations hearlier children hstrict htop hfree hpaths
  | .component name script, hstrict, htop, hfree, hpaths => by
    rw [collect, collect]
    refine (SucceedsLike.note _).bind fun _ _ _ ↦ ?_
    exact collectScript_succeedsLike hrelations hearlier name script hstrict htop hfree hpaths
  | .element type props tag children, hstrict, _, hfree, hpaths => by
    rw [collect, collect]
    refine (documentOf_succeedsLike hrelations hearlier hstrict hfree hpaths).bind fun _ _ _ ↦ ?_
    exact SucceedsLike.pure trivial
  | .literal _ _ _ _, _, htop, _, _ => htop.elim
  | .transform _ _, _, htop, _, _ => htop.elim

theorem collectAll_succeedsLike (hrelations : schema.relations.KeyPaths)
    (hearlier : Supplies.Earlier early late) : ∀ nodes : List Node, Node.AllStrict early nodes →
    Node.AllElementsOnTop late nodes → Node.AllTransformFree late nodes →
    Node.AllKeyPaths late nodes →
    SucceedsLike (fun _ _ ↦ True) (collectAll ⟨schema, marker, early⟩ nodes)
      (collectAll ⟨schema, marker, late⟩ nodes)
  | [], _, _, _, _ => SucceedsLike.pure trivial
  | node :: rest, hstrict, htop, hfree, hpaths => by
    rw [collectAll, collectAll]
    refine (collect_succeedsLike hrelations hearlier node hstrict.1 htop.1 hfree.1 hpaths.1).bind
      fun _ _ _ ↦ ?_
    refine (collectAll_succeedsLike hrelations hearlier rest hstrict.2 htop.2 hfree.2
      hpaths.2).bind fun _ _ _ ↦ ?_
    exact SucceedsLike.pure trivial

theorem collectScript_succeedsLike (hrelations : schema.relations.KeyPaths)
    (hearlier : Supplies.Earlier early late) (owner : String) : ∀ script : Script,
    script.Strict early → script.ElementsOnTop late → script.TransformFree late →
    script.KeyPaths late →
    SucceedsLike (fun _ _ ↦ True) (collectScript ⟨schema, marker, early⟩ owner script)
      (collectScript ⟨schema, marker, late⟩ owner script)
  | .yield node, hstrict, htop, hfree, hpaths => by
    rw [collectScript, collectScript]
    exact collect_succeedsLike hrelations hearlier node hstrict htop hfree hpaths
  | .suspend, _, _, _, _ => by
    rw [collectScript, collectScript]
    exact (SucceedsLike.note _).bind fun _ _ _ ↦ SucceedsLike.pure trivial
  | .read handle next, hstrict, htop, hfree, hpaths => by
    cases hvalue : early.value? handle with
    | none =>
      intro _ log _ _ _
      obtain ⟨after, hexec, -⟩ := exec_collectScript_of_givesUp ⟨schema, marker, early⟩ owner _
        (givesUp_of_missing hvalue (hstrict.1 hvalue)) log
      exact ⟨[], after, hexec, trivial⟩
    | some value =>
      have hlate : late.value? handle = some value := hearlier handle value hvalue
      have hsame : late.value? handle = early.value? handle := hlate.trans hvalue.symm
      have ih := collectScript_succeedsLike hrelations hearlier owner
        (next (early.value? handle)) hstrict.2 (hsame ▸ htop) (hsame ▸ hfree) (hsame ▸ hpaths)
      rw [hvalue] at ih
      rw [collectScript_read_of_some (show (Context.mk schema marker early).supplies.value? handle =
          some value from hvalue),
        collectScript_read_of_some (show (Context.mk schema marker late).supplies.value? handle =
          some value from hlate)]
      exact ih
  | .require message check next, hstrict, htop, hfree, hpaths => by
    rw [collectScript, collectScript]
    refine (SucceedsLike.note _).bind fun _ _ _ ↦ ?_
    exact collectScript_succeedsLike hrelations hearlier owner next hstrict htop hfree hpaths

end

/-- A pass succeeds early when it succeeds late. -/
theorem pass_eq_ok_of_earlier {tree : Node} {documents : List Json}
    (hrelations : schema.relations.KeyPaths) (hearlier : Supplies.Earlier early late)
    (hstrict : tree.Strict early) (htop : tree.ElementsOnTop late)
    (hfree : tree.TransformFree late) (hpaths : tree.KeyPaths late)
    (h : (pass ⟨schema, marker, late⟩ tree).1 = .ok documents) :
    ∃ part, (pass ⟨schema, marker, early⟩ tree).1 = .ok part := by
  obtain ⟨part, after, hexec, -⟩ := collect_succeedsLike hrelations hearlier tree hstrict htop hfree
    hpaths PassLog.empty PassLog.empty documents _ (Prod.ext h rfl)
  exact ⟨part, congrArg Prod.fst hexec⟩

end Passes

end Compose

/-! ## Runs -/

/-- The failure is one that settling reports: a missing value, or requirements that do not hold. -/
def Failure.ArisesInSettling : Failure → Prop
  | .requirements failures =>
    ∀ failure ∈ failures, ∃ owner message, failure = .violated owner message
  | .unsettled _ => True
  | .abandoned _ => True
  | _ => False

namespace Settle

variable {schema : Schema} {marker : String} {tree : Node}

/-- A phase that is over with a failure is so because of settling. -/
def Phase.FailsInSettling (phase : Phase) : Prop :=
  ∀ failure, phase = .finished (.failed failure) → failure.ArisesInSettling

theorem await_failsInSettling (supplies : Supplies) (handle : Handle) (rest : List Handle) :
    (await supplies handle rest).FailsInSettling := by
  intro failure h
  unfold await at h
  split at h
  · cases h
  · cases h
    trivial

theorem finalize_arisesInSettling {supplies : Supplies} {documents : List Json} {log : PassLog}
    {failure : Failure} (h : Compose.finalize supplies documents log = .error failure) :
    failure.ArisesInSettling := by
  rw [Compose.finalize_eq] at h
  split at h
  · cases h
    trivial
  · split at h
    · next hbatch =>
      unfold Failure.batch? at hbatch
      split at hbatch
      · cases hbatch
      · cases hbatch
        cases h
        intro failure hmem
        rw [Compose.violations_eq] at hmem
        obtain ⟨requirement, -, rfl⟩ := List.mem_map.mp hmem
        exact ⟨requirement.owner, requirement.message, rfl⟩
    · cases h

/-- A pass that succeeds can only fail to settle. -/
theorem afterPass_failsInSettling (supplies : Supplies) (documents : List Json) (log : PassLog) :
    (afterPass supplies (.ok documents) log).FailsInSettling := by
  intro failure h
  rw [afterPass_ok] at h
  split at h
  · cases hfinal : Compose.finalize supplies documents log with
    | ok final =>
      rw [hfinal] at h
      cases h
    | error found =>
      rw [hfinal] at h
      cases h
      exact finalize_arisesInSettling hfinal
  · split at h
    · cases h
      trivial
    · exact await_failsInSettling _ _ _ failure h

/-- Every pass with the supplies that a run has so far succeeds. -/
def PassesSucceed (schema : Schema) (marker : String) (tree : Node) (full : Supplies) : Prop :=
  ∀ early, Supplies.Earlier early full →
    ∃ part, (Compose.pass ⟨schema, marker, early⟩ tree).1 = .ok part

variable {full : Supplies} {assignment : Handle → Json}

theorem attempt_failsInSettling {supplies : Supplies}
    (hpasses : PassesSucceed schema marker tree full) (h : supplies.Earlier full) :
    (attempt schema marker tree supplies).2.FailsInSettling := by
  obtain ⟨part, hpart⟩ := hpasses supplies h
  rcases hpass : Compose.pass ⟨schema, marker, supplies⟩ tree with ⟨result, log⟩
  rw [hpass] at hpart
  cases hpart
  rw [attempt_of_pass hpass]
  exact afterPass_failsInSettling supplies part log

theorem resume_failsInSettling {supplies : Supplies}
    (hpasses : PassesSucceed schema marker tree full) (h : supplies.Earlier full)
    (pending : List Handle) :
    (resume schema marker tree supplies pending).2.FailsInSettling := by
  cases hunready : supplies.unready pending with
  | cons handle rest =>
    rw [resume_of_unready hunready]
    exact await_failsInSettling _ _ _
  | nil =>
    rw [resume_of_ready hunready]
    exact attempt_failsInSettling hpasses h

theorem proceed_failsInSettling {supplies : Supplies} {phase : Phase}
    {batches : List (List SupplyAction)} {failure : Failure}
    (hpasses : PassesSucceed schema marker tree full) (hfollows : supplies.Follows assignment)
    (hfull : supplies.FilledBy assignment full)
    (hbatches : ∀ batch ∈ batches, ∀ action ∈ batch, action.Follows assignment)
    (hphase : phase.FailsInSettling)
    (h : (proceed schema marker (fun _ ↦ tree) supplies phase batches).outcome =
      .failed failure) :
    failure.ArisesInSettling := by
  induction batches generalizing supplies phase with
  | nil =>
    cases phase with
    | finished outcome => exact hphase failure (congrArg Phase.finished h)
    | blocked pending => cases h
  | cons batch rest ih =>
    cases phase with
    | finished outcome => exact hphase failure (congrArg Phase.finished h)
    | blocked pending =>
      have hnext := hfollows.applyAll (hbatches batch List.mem_cons_self)
      have hfilled := hfull.applyAll batch
      refine ih hnext hfilled (fun other hmem ↦ hbatches other (List.mem_cons_of_mem _ hmem))
        ?_ h
      exact resume_failsInSettling hpasses (Supplies.earlier_of_follows hnext hfilled) pending

/-- Waiting never turns a good tree into a failure of composing. Where the pass with all values
succeeds, the pass with any of them missing succeeds as well, and no run that gets these values in
some order ends through a child or a value without a place. -/
theorem runBatches_failsInSettling {declared : List Relation} {documents : List Json}
    (hdeclared : Relations.ofList declared = .ok schema.relations)
    (hkeys : ∀ relation ∈ declared, relation.path.keysOnly)
    (hstrict : ∀ supplies, tree.Strict supplies) (htop : tree.ElementsOnTop full)
    (hfree : tree.TransformFree full) (hpaths : tree.KeyPaths full)
    (hdocuments : (Compose.pass ⟨schema, marker, full⟩ tree).1 = .ok documents) :
    PassesSucceed schema marker tree full ∧
      ∀ supplies assignment batches failure, supplies.Follows assignment →
        supplies.FilledBy assignment full →
        (∀ batch ∈ batches, ∀ action ∈ batch, action.Follows assignment) →
        (runBatches schema marker tree supplies batches).outcome = .failed failure →
        failure.ArisesInSettling := by
  have hrelations := Relations.keyPaths_of_ofList hdeclared hkeys
  have hpasses : PassesSucceed schema marker tree full := fun early hearlier ↦
    Compose.pass_eq_ok_of_earlier hrelations hearlier (hstrict early) htop hfree hpaths hdocuments
  refine ⟨hpasses, fun supplies assignment batches failure hfollows hfull hbatches hrun ↦ ?_⟩
  refine proceed_failsInSettling hpasses hfollows hfull hbatches ?_ hrun
  exact attempt_failsInSettling hpasses (Supplies.earlier_of_follows hfollows hfull)

/-- A pod whose container waits for its image: the pass without the image leaves out the container,
and a run whose image never comes ends with the abandoned value. -/
theorem runBatches_failsInSettling_pod :
    let pod : TypeName := ⟨"Pod"⟩
    let container : Relation := ⟨⟨"Container"⟩, pod, .ofKeys ["spec", "containers"], true, none⟩
    let relations : Relations := ⟨[(pod, [container])], [((pod, container.child), .only container)]⟩
    let schema : Schema := ⟨relations, [], default⟩
    let image : Handle := ⟨"image", "image"⟩
    let nginx : Json := .string "nginx"
    let web : Node := .component "web" (.await image fun value ↦
      .yield (.element container.child [("image", value)] none []))
    let restart : Node :=
      .literal (.ofKeys ["spec", "restart"]) (some (.string "Always")) false []
    let tree : Node := .fragment [.element pod [] none [web, restart]]
    let supplies : Supplies := [(image, ⟨none, true⟩)]
    let full : Supplies := [(image, ⟨some nginx, true⟩)]
    let document : Json := .object [("spec", .object [
      ("containers", .array [.object [("image", nginx)]]), ("restart", .string "Always")])]
    let failure : Failure := .abandoned "image"
    (Compose.pass ⟨schema, "@", full⟩ tree).1 = .ok [document] ∧
      (∃ part, (Compose.pass ⟨schema, "@", supplies⟩ tree).1 = .ok part) ∧
      (runBatches schema "@" tree supplies [[.withdraw image]]).outcome = .failed failure ∧
      failure.ArisesInSettling := by
  intro pod container relations schema image nginx web restart tree supplies full document failure
  have hstrict (supplies : Supplies) : tree.Strict supplies := by
    refine ⟨⟨⟨fun _ ↦ trivial, ?_⟩, trivial, trivial⟩, trivial⟩
    cases supplies.value? image <;> trivial
  have hfollows : supplies.Follows fun _ ↦ nginx := by
    intro handle value hvalue
    by_cases himage : image = handle
    · subst himage
      cases hvalue
    · simp [supplies, Supplies.value?, Association.get?_cons_of_ne himage] at hvalue
  have hfull : supplies.FilledBy (fun _ ↦ nginx) full := by
    intro handle hsome
    by_cases himage : image = handle
    · subst himage
      rfl
    · simp [supplies, Association.get?_cons_of_ne himage] at hsome
  have hpass : (Compose.pass ⟨schema, "@", full⟩ tree).1 = .ok [document] := rfl
  have hrun : (runBatches schema "@" tree supplies [[.withdraw image]]).outcome =
      .failed failure := rfl
  have hdeclared : Relations.ofList [container] = .ok schema.relations := rfl
  have hkeys : ∀ relation ∈ [container], relation.path.keysOnly := by
    simp only [List.mem_singleton, forall_eq]
    rfl
  have htop : tree.ElementsOnTop full := ⟨trivial, trivial⟩
  have hfree : tree.TransformFree full :=
    ⟨⟨show Script.TransformFree full (.yield _) from trivial, trivial, trivial⟩, trivial⟩
  have hpaths : tree.KeyPaths full :=
    ⟨⟨show Script.KeyPaths full (.yield _) from trivial, ⟨rfl, trivial⟩, trivial⟩, trivial⟩
  obtain ⟨hpasses, hfails⟩ :=
    runBatches_failsInSettling hdeclared hkeys hstrict htop hfree hpaths hpass
  refine ⟨hpass, hpasses supplies (Supplies.earlier_of_follows hfollows hfull), hrun, ?_⟩
  refine hfails supplies _ _ failure hfollows hfull ?_ hrun
  simp [SupplyAction.Follows]

end Settle
end ManifestTree
