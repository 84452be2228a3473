import ManifestTree.Proofs.ArrayItems
import ManifestTree.Proofs.IndependentDocuments
import ManifestTree.Proofs.LayeredPaths
import ManifestTree.Proofs.NullFields

/-!
# Arrays keep the order of the tree

Inside an element, elements of an array relation and literals that append make one item each. When
nothing else is written at, above or below the array, its items are those of the properties and
then the ones of the tree, depth first, each as it would be composed by itself. What is written at
other places in between shows nowhere in the array. Trees with transforms are left out, which may
replace an array as a whole.
-/

namespace ManifestTree

open Json

/-! ## What a tree writes -/

/-- A node that makes a value of its own. -/
inductive Piece where
  /-- An element: its properties, expanded, with its children composed into them. -/
  | element (type : TypeName) (props : Members) (children : List Node)
  /-- An item: its value or an empty object, with its children composed into it. -/
  | item (value : Option Json) (children : List Node)

/-- What a tree writes at one place. -/
structure Write where
  target : FieldPath
  /-- What makes the item that is appended there; nothing where a value is set or laid. -/
  appended : Option Piece

namespace Compose

open Weaving

mutual

/-- What the node writes at its base, depth first. What is written inside an item belongs to the
item. -/
def writes (context : Context) (enclosing : List TypeName) (base : FieldPath) : Node → List Write
  | .fragment children => writesOfAll context enclosing base children
  | .element type props tag children =>
    match locate context.schema enclosing type tag with
    | .ok (some relation) =>
      [⟨base.join relation.path,
        if relation.isMany then some (.element type props children) else none⟩]
    | .ok none => [⟨base, none⟩]
    | .error _ => []
  | .literal path value isItem children =>
    if isItem then [⟨base.join path, some (.item value children)⟩]
    else
      (if value.isSome then [⟨base.join path, none⟩] else []) ++
        writesOfAll context enclosing (base.join path) children
  | .transform _ _ => [⟨base, none⟩]
  | .component _ script => writesOfScript context enclosing base script

def writesOfAll (context : Context) (enclosing : List TypeName) (base : FieldPath) :
    List Node → List Write
  | [] => []
  | node :: rest => writes context enclosing base node ++ writesOfAll context enclosing base rest

def writesOfScript (context : Context) (enclosing : List TypeName) (base : FieldPath) :
    Script → List Write
  | .yield node => writes context enclosing base node
  | .suspend => []
  | .read handle next =>
    writesOfScript context enclosing base (next (context.supplies.value? handle))
  | .require _ _ next => writesOfScript context enclosing base next

end

end Compose

/-- What makes the item that the write appends at a path, if it does. -/
def Write.feeds? (write : Write) (path : FieldPath) : Option Piece :=
  if write.target = path then write.appended else none

/-- What makes the items that are appended at a path, in order. -/
def Write.feeders (path : FieldPath) (writes : List Write) : List Piece :=
  writes.filterMap (·.feeds? path)

/-- Each of the writes appends at the path, or goes neither to it nor above nor below it. -/
def Write.OnlyFeed (path : FieldPath) (writes : List Write) : Prop :=
  ∀ write ∈ writes, (write.feeds? path).isSome ∨ Apart write.target.steps path.steps

theorem Write.OnlyFeed.append {path : FieldPath} {front back : List Write}
    (h : Write.OnlyFeed path (front ++ back)) :
    Write.OnlyFeed path front ∧ Write.OnlyFeed path back :=
  List.forall_mem_append.mp h

instance (path other : List Step) : Decidable (Apart path other) :=
  inferInstanceAs (Decidable (¬ path <+: other ∧ ¬ other <+: path))

instance (path : FieldPath) (writes : List Write) : Decidable (Write.OnlyFeed path writes) :=
  inferInstanceAs (Decidable (∀ write ∈ writes,
    (write.feeds? path).isSome ∨ Apart write.target.steps path.steps))

/-! ## Values composed by themselves -/

namespace Piece

open Compose Weaving

/-- The value that the node makes, composed by itself. -/
def compose (context : Context) (enclosing : List TypeName) : Piece → Weaving Json
  | element type props children => do
    let fields ← settleWith ((context.schema.rulesOf type).expand context.marker props)
    weaveAll context (enclosing ++ [type]) .root (.object fields) children
  | item value children =>
    weaveAll context enclosing .root (value.getD (.object [])) children

/-- Behind every log, the node composes to the value. -/
def Yields (context : Context) (enclosing : List TypeName) (piece : Piece) (value : Json) : Prop :=
  ∀ log, (exec (piece.compose context enclosing) log).1 = .ok value

theorem compose_continues (context : Context) (enclosing : List TypeName) (piece : Piece) :
    Continues (piece.compose context enclosing) := by
  cases piece with
  | element type props children =>
    exact (Continues.settleWith _).bind fun fields ↦ weaveAll_continues _ _ _ children
  | item value children => exact weaveAll_continues _ _ _ children

section Yields

variable {context : Context} {enclosing : List TypeName} {piece : Piece} {value other : Json}

/-- What the node composes to behind one log, it composes to behind every log. -/
theorem yields_of_exec {log after : PassLog}
    (h : exec (piece.compose context enclosing) log = (.ok value, after)) :
    piece.Yields context enclosing value := by
  intro second
  have hcontinues := compose_continues context enclosing piece
  rw [hcontinues second]
  rw [hcontinues log] at h
  exact congrArg Prod.fst h

theorem Yields.unique (h : piece.Yields context enclosing value)
    (hother : piece.Yields context enclosing other) : value = other :=
  Except.ok.inj ((h PassLog.empty).symm.trans (hother PassLog.empty))

end Yields

end Piece

namespace Compose

open Weaving

variable {context : Context} {enclosing : List TypeName} {document : Json}

/-! ## Items composed in place -/

/-- Whenever the first part answers, it leaves the document, and the second one leaves null. -/
def KeepsNull (document : Json) (part other : Weaving Json) : Prop :=
  ∀ log result after, exec part log = (.ok result, after) →
    result = document ∧ exec other log = (.ok .null, after)

theorem KeepsNull.of_fails {part : Weaving Json} (h : Fails part) (other : Weaving Json) :
    KeepsNull document part other :=
  fun log result after hexec ↦ (h log result after hexec).elim

theorem KeepsNull.after {α : Type} (part : Weaving α) {next following : α → Weaving Json}
    (h : ∀ answer, KeepsNull document (next answer) (following answer)) :
    KeepsNull document (part >>= next) (part >>= following) := by
  intro log result after hexec
  obtain ⟨answer, middle, hpart, hnext⟩ := exec_bind_eq_ok_iff.mp hexec
  rw [exec_bind_of_ok hpart]
  exact h answer middle result after hnext

theorem KeepsNull.bind {part other : Weaving Json} {next following : Json → Weaving Json}
    (h : KeepsNull document part other)
    (hnext : KeepsNull document (next document) (following .null)) :
    KeepsNull document (part >>= next) (other >>= following) := by
  intro log result after hexec
  obtain ⟨left, middle, hpart, hleft⟩ := exec_bind_eq_ok_iff.mp hexec
  obtain ⟨rfl, hother⟩ := h log left middle hpart
  rw [exec_bind_of_ok hother]
  exact hnext middle result after hleft

section Null

variable {front : FieldPath}

mutual

/-- Where null stands, the parts of an element that succeed write nothing. -/
theorem weave_keepsNull (h : document.get? front = some .null) (hfront : front ≠ .root)
    (henclosing : enclosing ≠ []) : ∀ node : Node, node.TransformFree context.supplies →
    ∀ place : FieldPath,
      KeepsNull document (weave context enclosing (front.join place) document node)
        (weave context enclosing place .null node)
  | .fragment children, hfree, place => by
    rw [weave, weave]
    exact weaveAll_keepsNull h hfront henclosing children hfree place
  | .element type props tag children, _, place => by
    rw [weave]
    refine KeepsNull.of_fails ?_ _
    refine Answers.bind (Answers.settleWith _) fun relation hlocate ↦ ?_
    obtain ⟨found, rfl⟩ := locate_eq_some henclosing hlocate
    refine Fails.after _ fun fields ↦ Fails.after _ fun value ↦ ?_
    refine putElement_fails h hfront (fun hnone ↦ ?_) value
    cases hnone
  | .literal path value true children, _, place => by
    rw [weave]
    exact KeepsNull.of_fails ((putLiteral_fails h hfront place path rfl).bind _) _
  | .literal path (some value) false children, _, place => by
    rw [weave]
    exact KeepsNull.of_fails ((putLiteral_fails h hfront place path rfl).bind _) _
  | .literal path none false children, hfree, place => by
    have hchildren := weaveAll_keepsNull h hfront henclosing children hfree (place.join path)
    rw [← FieldPath.join_assoc] at hchildren
    rw [weave, weave]
    exact hchildren
  | .transform _ _, hfree, _ => hfree.elim
  | .component name script, hfree, place => by
    rw [weave, weave]
    exact KeepsNull.after _ fun _ ↦
      weaveScript_keepsNull h hfront henclosing name script hfree place

theorem weaveAll_keepsNull (h : document.get? front = some .null) (hfront : front ≠ .root)
    (henclosing : enclosing ≠ []) : ∀ nodes : List Node,
    Node.AllTransformFree context.supplies nodes → ∀ place : FieldPath,
      KeepsNull document (weaveAll context enclosing (front.join place) document nodes)
        (weaveAll context enclosing place .null nodes)
  | [], _, _ => by
    intro log result after hexec
    cases hexec
    exact ⟨rfl, rfl⟩
  | node :: rest, hfree, place => by
    rw [weaveAll, weaveAll]
    exact (weave_keepsNull h hfront henclosing node hfree.1 place).bind
      (weaveAll_keepsNull h hfront henclosing rest hfree.2 place)

theorem weaveScript_keepsNull (h : document.get? front = some .null) (hfront : front ≠ .root)
    (henclosing : enclosing ≠ []) (owner : String) : ∀ script : Script,
    script.TransformFree context.supplies → ∀ place : FieldPath,
      KeepsNull document (weaveScript context owner enclosing (front.join place) document script)
        (weaveScript context owner enclosing place .null script)
  | .yield node, hfree, place => weave_keepsNull h hfront henclosing node hfree place
  | .suspend, _, _ => by
    rw [weaveScript, weaveScript]
    refine KeepsNull.after _ fun _ log result after hexec ↦ ?_
    cases hexec
    exact ⟨rfl, rfl⟩
  | .read handle next, hfree, place => by
    have hnext := weaveScript_keepsNull h hfront henclosing owner
      (next (context.supplies.value? handle)) hfree place
    rw [weaveScript, weaveScript]
    split
    · exact KeepsNull.after _ fun _ ↦ hnext
    · exact hnext
  | .require _ _ next, hfree, place => by
    rw [weaveScript, weaveScript]
    exact KeepsNull.after _ fun _ ↦
      weaveScript_keepsNull h hfront henclosing owner next hfree place

end

end Null

/-- Nodes composed into a value inside a document compose to the same value by themselves. -/
theorem weaveAll_aside {base : FieldPath} {inner result : Json} {nodes : List Node}
    {log after : PassLog} (henclosing : enclosing ≠ [])
    (hfree : Node.AllTransformFree context.supplies nodes) (hbase : base ≠ .root)
    (hread : document.get? base = some inner)
    (hexec : exec (weaveAll context enclosing base document nodes) log = (.ok result, after)) :
    ∃ value, exec (weaveAll context enclosing .root inner nodes) log = (.ok value, after) ∧
      result = document.replace base value := by
  have hlead : Leads inner base.steps document := leads_of_getSteps? hread
  have hself : document.replace base inner = document := hlead.replaceSteps_self
  by_cases hinner : inner = .null
  · subst hinner
    have hkeeps := weaveAll_keepsNull hread hbase henclosing nodes hfree .root
    rw [FieldPath.join_root] at hkeeps
    obtain ⟨rfl, haside⟩ := hkeeps log result after hexec
    exact ⟨.null, haside, hself.symm⟩
  · have hmirrors := weaveAll_mirrors hlead nodes hfree enclosing .root henclosing hinner
    rw [FieldPath.join_root, hself] at hmirrors
    rcases haside : exec (weaveAll context enclosing .root inner nodes) log
      with ⟨failure | value, left⟩
    · obtain ⟨reason, hplace⟩ := hmirrors.error haside
      cases hplace.symm.trans hexec
    · have hplace := (hmirrors.ok haside).symm.trans hexec
      cases hplace
      exact ⟨value, rfl, rfl⟩

/-! ## Items in the order of the tree -/

/-- A part of a pass has put behind the items at a path what the pieces that feed it make, one item
each, in order. -/
def Collects (context : Context) (enclosing : List TypeName) (path : FieldPath)
    (writes : List Write) (before after : Json) : Prop :=
  ∃ items, List.Forall₂ (Piece.Yields context enclosing) (Write.feeders path writes) items ∧
    Gains (before.get? path) items (after.get? path)

namespace Collects

variable {path : FieldPath} {front back : List Write} {before middle after : Json}

theorem nothing (context : Context) (enclosing : List TypeName) (path : FieldPath)
    (document : Json) : Collects context enclosing path [] document document :=
  ⟨[], .nil, .nothing⟩

theorem append (hfront : Collects context enclosing path front before middle)
    (hback : Collects context enclosing path back middle after) :
    Collects context enclosing path (front ++ back) before after := by
  obtain ⟨xs, hxs, hbefore⟩ := hfront
  obtain ⟨ys, hys, hafter⟩ := hback
  refine ⟨xs ++ ys, ?_, hbefore.append hafter⟩
  rw [Write.feeders, List.filterMap_append]
  exact List.rel_append hxs hys

/-- What is appended is collected where it feeds the path. -/
theorem of_append {target : FieldPath} {piece : Piece} {document left start value : Json}
    {position : Nat} (honly : Write.OnlyFeed path [⟨target, some piece⟩])
    (hdocument : document ≠ .null) (h : document.append target start = (.ok position, left))
    (hvalue : piece.Yields context enclosing value) :
    Collects context enclosing path [⟨target, some piece⟩] document
      (left.replace (target.index position) value) := by
  obtain ⟨hfeeds, helse⟩ := gains_of_append hdocument h value path
  by_cases htarget : target = path
  · refine ⟨[value], ?_, hfeeds htarget⟩
    simpa [Write.feeders, Write.feeds?, htarget] using hvalue
  · have hapart : Apart target.steps path.steps := by
      simpa [Write.OnlyFeed, Write.feeds?, htarget] using honly
    refine ⟨[], by simp [Write.feeders, Write.feeds?, htarget], ?_⟩
    rw [helse hapart]
    exact .nothing

/-- What is set does not touch the items. -/
theorem of_set {target : FieldPath} {document left value : Json} {answer : Unit}
    (honly : Write.OnlyFeed path [⟨target, none⟩]) (hdocument : document ≠ .null)
    (h : document.set target value = (.ok answer, left)) :
    Collects context enclosing path [⟨target, none⟩] document left := by
  have hapart : Apart target.steps path.steps := by
    simpa [Write.OnlyFeed, Write.feeds?] using honly
  have hread := get?_write_of_apart (fill target value) hdocument hapart
  rw [← Json.set, h] at hread
  refine ⟨[], by simp [Write.feeders, Write.feeds?], ?_⟩
  rw [hread]
  exact .nothing

end Collects

section Runs

variable {path : FieldPath}

/-- An element is located, composed by itself and put where its relation says. -/
theorem weave_element_eq (base : FieldPath) (document : Json) (type : TypeName) (props : Members)
    (tag : Option String) (children : List Node) :
    weave context enclosing base document (.element type props tag children) = (do
      let relation ← settleWith (locate context.schema enclosing type tag)
      let value ← (Piece.element type props children).compose context enclosing
      putElement relation base document value) := by
  rw [weave]
  simp only [Piece.compose, bind_assoc]

theorem putElement_collects {base : FieldPath} {relation : Relation} {piece : Piece}
    {value : Json} (hdocument : document ≠ .null)
    (honly : Write.OnlyFeed path
      [⟨base.join relation.path, if relation.isMany then some piece else none⟩])
    (hvalue : piece.Yields context enclosing value) :
    Answers (Collects context enclosing path
        [⟨base.join relation.path, if relation.isMany then some piece else none⟩] document)
      (putElement (some relation) base document value) := by
  unfold putElement
  dsimp only
  cases hmany : relation.isMany with
  | true =>
    simp only [hmany, if_true] at honly ⊢
    refine (Answers.written _).bind fun answer happend ↦ Answers.pure ?_
    have hcollects := Collects.of_append honly hdocument happend hvalue
    have hself := (leads_of_getSteps? (get?_of_append happend)).replaceSteps_self
    rwa [replace, hself] at hcollects
  | false =>
    simp only [hmany, Bool.false_eq_true, if_false] at honly ⊢
    exact (Answers.written _).bind fun answer hset ↦
      Answers.pure (Collects.of_set honly hdocument hset)

theorem putItem_collects {base place : FieldPath} {value : Option Json} {children : List Node}
    (henclosing : enclosing ≠ []) (hfree : Node.AllTransformFree context.supplies children)
    (hdocument : document ≠ .null)
    (honly : Write.OnlyFeed path [⟨base.join place, some (.item value children)⟩]) :
    Answers (Collects context enclosing path [⟨base.join place, some (.item value children)⟩]
        document)
      (weave context enclosing base document (.literal place value true children)) := by
  rw [weave]
  unfold putLiteral
  simp only [if_true, bind_assoc, pure_bind]
  refine (Answers.written _).bind fun answer happend log result after hexec ↦ ?_
  have hindex : (base.join place).index answer.1 ≠ .root := by
    simp [FieldPath.index, FieldPath.root]
  obtain ⟨inner, haside, rfl⟩ :=
    weaveAll_aside henclosing hfree hindex (get?_of_append happend) hexec
  exact Collects.of_append honly hdocument happend (Piece.yields_of_exec haside)

mutual

/-- A node that only feeds a path collects its items there in order. -/
theorem weave_collects (henclosing : enclosing ≠ []) : ∀ node : Node,
    node.TransformFree context.supplies → ∀ (base : FieldPath) {document : Json},
    document ≠ .null → Write.OnlyFeed path (writes context enclosing base node) →
    Answers (Collects context enclosing path (writes context enclosing base node) document)
      (weave context enclosing base document node)
  | .fragment children, hfree, base, document, hdocument, honly => by
    rw [weave, writes]
    rw [writes] at honly
    exact weaveAll_collects henclosing children hfree base hdocument honly
  | .element type props tag children, _, base, document, hdocument, honly => by
    rw [weave_element_eq]
    refine (Answers.settleWith _).bind fun relation hlocate ↦ ?_
    obtain ⟨found, rfl⟩ := locate_eq_some henclosing hlocate
    rw [writes, hlocate] at honly ⊢
    have hyields : Answers ((Piece.element type props children).Yields context enclosing)
        ((Piece.element type props children).compose context enclosing) :=
      fun _ _ _ ↦ Piece.yields_of_exec
    exact hyields.bind fun value hvalue ↦ putElement_collects hdocument honly hvalue
  | .literal place value true children, hfree, base, document, hdocument, honly => by
    rw [writes, if_pos rfl] at honly ⊢
    exact putItem_collects henclosing hfree hdocument honly
  | .literal place (some value) false children, hfree, base, document, hdocument, honly => by
    rw [writes, if_neg Bool.false_ne_true] at honly ⊢
    obtain ⟨hown, hchildren⟩ := honly.append
    rw [weave]
    unfold putLiteral
    simp only [Bool.false_eq_true, if_false, bind_assoc, pure_bind]
    refine (Answers.written _).bind fun answer hset ↦ ?_
    have hleft : answer.2 ≠ .null := (set_extendedBy hdocument hset).1.ne_null hdocument
    intro log result after hexec
    exact (Collects.of_set hown hdocument hset).append
      (weaveAll_collects henclosing children hfree _ hleft hchildren log result after hexec)
  | .literal place none false children, hfree, base, document, hdocument, honly => by
    rw [writes, if_neg Bool.false_ne_true] at honly ⊢
    rw [weave]
    exact weaveAll_collects henclosing children hfree (base.join place) hdocument honly
  | .transform _ _, hfree, _, _, _, _ => hfree.elim
  | .component name script, hfree, base, document, hdocument, honly => by
    rw [weave, writes]
    rw [writes] at honly
    exact (Answers.note _).bind fun _ _ ↦
      weaveScript_collects henclosing name script hfree base hdocument honly

theorem weaveAll_collects (henclosing : enclosing ≠ []) : ∀ nodes : List Node,
    Node.AllTransformFree context.supplies nodes → ∀ (base : FieldPath) {document : Json},
    document ≠ .null → Write.OnlyFeed path (writesOfAll context enclosing base nodes) →
    Answers (Collects context enclosing path (writesOfAll context enclosing base nodes) document)
      (weaveAll context enclosing base document nodes)
  | [], _, _, document, _, _ => Answers.pure (Collects.nothing context enclosing path document)
  | node :: rest, hfree, base, document, hdocument, honly => by
    rw [writesOfAll] at honly ⊢
    obtain ⟨hnode, hrest⟩ := honly.append
    rw [weaveAll]
    intro log result after hexec
    obtain ⟨left, middle, hfirst, hthen⟩ := exec_bind_eq_ok_iff.mp hexec
    have hleft := (weave_onlyAdds henclosing hdocument hfree.1 hfirst).1.ne_null hdocument
    exact (weave_collects henclosing node hfree.1 base hdocument hnode log left middle
      hfirst).append
      (weaveAll_collects henclosing rest hfree.2 base hleft hrest middle result after hthen)

theorem weaveScript_collects (henclosing : enclosing ≠ []) (owner : String) :
    ∀ script : Script, script.TransformFree context.supplies → ∀ (base : FieldPath)
    {document : Json}, document ≠ .null →
    Write.OnlyFeed path (writesOfScript context enclosing base script) →
    Answers (Collects context enclosing path (writesOfScript context enclosing base script)
        document)
      (weaveScript context owner enclosing base document script)
  | .yield node, hfree, base, document, hdocument, honly => by
    rw [weaveScript, writesOfScript]
    rw [writesOfScript] at honly
    exact weave_collects henclosing node hfree base hdocument honly
  | .suspend, _, _, document, _, _ => by
    rw [weaveScript]
    exact (Answers.note _).bind fun _ _ ↦
      Answers.pure (Collects.nothing context enclosing path document)
  | .read handle next, hfree, base, document, hdocument, honly => by
    rw [writesOfScript] at honly ⊢
    have hnext := weaveScript_collects henclosing owner (next (context.supplies.value? handle))
      hfree base hdocument honly
    rw [weaveScript]
    split
    · exact (Answers.note _).bind fun _ _ ↦ hnext
    · exact hnext
  | .require _ _ next, hfree, base, document, hdocument, honly => by
    rw [writesOfScript] at honly ⊢
    rw [weaveScript]
    exact (Answers.note _).bind fun _ _ ↦
      weaveScript_collects henclosing owner next hfree base hdocument honly

end

end Runs

/-! ## The array of an element -/

section Element

variable {outer : List TypeName} {type : TypeName} {props : Members} {path : FieldPath}
  {pieces : List Piece} {value other : Json}

/-- What an element of a type lists at a path: the items that its properties, expanded, hold there,
and behind them those that the pieces make, one each, in order. -/
def ListsItems (context : Context) (outer : List TypeName) (type : TypeName) (props : Members)
    (path : FieldPath) (pieces : List Piece) (value : Json) : Prop :=
  ∃ fields old items,
    (context.schema.rulesOf type).expand context.marker props = .ok fields ∧
    HoldsItems ((Json.object fields).get? path) old ∧
    List.Forall₂ (Piece.Yields context (outer ++ [type])) pieces items ∧
    value.get? path = some (.array (old ++ items))

theorem ListsItems.unique (h : ListsItems context outer type props path pieces value)
    (hother : ListsItems context outer type props path pieces other) :
    other.get? path = value.get? path := by
  obtain ⟨fields, old, items, hexpand, hold, hitems, hvalue⟩ := h
  obtain ⟨found, before, made, hfound, hbefore, hmade, hread⟩ := hother
  cases hexpand.symm.trans hfound
  have hyields : Relator.RightUnique (Piece.Yields context (outer ++ [type])) :=
    fun _ _ _ ↦ Piece.Yields.unique
  rw [hread, hvalue, hold.unique hbefore, hyields.forall₂ hitems hmade]

/-- An element by itself. -/
theorem listsItems_of_yields {children : List Node}
    (hfree : Node.AllTransformFree context.supplies children)
    (honly : Write.OnlyFeed path (writesOfAll context (outer ++ [type]) .root children))
    (hfed : Write.feeders path (writesOfAll context (outer ++ [type]) .root children) ≠ [])
    (h : (Piece.element type props children).Yields context outer value) :
    ListsItems context outer type props path
      (Write.feeders path (writesOfAll context (outer ++ [type]) .root children)) value := by
  obtain ⟨fields, middle, hexpand, hchildren⟩ := exec_bind_eq_ok_iff.mp
    (Prod.ext (h PassLog.empty) rfl)
  rw [exec_settleWith] at hexpand
  obtain ⟨items, hitems, hgains⟩ := weaveAll_collects (by simp) children hfree .root
    Json.noConfusion honly middle value _ hchildren
  have hne : items ≠ [] := by
    rintro rfl
    exact hfed (List.forall₂_nil_right_iff.mp hitems)
  obtain ⟨old, hold, hvalue⟩ := hgains.exists_items hne
  exact ⟨fields, old, items, congrArg Prod.fst hexpand, hold, hitems, hvalue⟩

/-- An element's value goes to a place, and an array that it holds is read there. -/
theorem putElement_place (path : FieldPath) {relation : Option Relation} {base : FieldPath}
    {result : Json} {log after : PassLog} (hvalue : value.WellFormed)
    (h : exec (putElement relation base document value) log = (.ok result, after)) :
    ∃ place, (∀ log, exec (putElementTraced relation base document value) log =
        (.ok (place, result), log)) ∧
      ∀ items, value.get? path = some (.array items) →
        result.get? (place.join path) = some (.array items) := by
  have hinside {place : FieldPath} (hplace : result.get? place = some value) (items : List Json)
      (hread : value.get? path = some (.array items)) :
      result.get? (place.join path) = some (.array items) := by
    rw [get?_join, hplace]
    exact hread
  cases relation with
  | none =>
    obtain ⟨⟨_, left⟩, _, hwritten, heq⟩ := exec_bind_eq_ok_iff.mp h
    obtain ⟨hmerge, rfl⟩ := exec_written_eq_ok hwritten
    cases heq
    refine ⟨base, fun log ↦ ?_, fun items hread ↦ ?_⟩
    · rw [putElementTraced, hmerge]
      rfl
    · rw [get?_join, get?_of_mergeAt hmerge]
      exact getSteps?_overlay_value hvalue hread rfl _
  | some relation =>
    unfold putElement at h
    unfold putElementTraced
    cases hmany : relation.isMany with
    | true =>
      simp only [hmany, if_true] at h ⊢
      obtain ⟨⟨position, left⟩, _, hwritten, heq⟩ := exec_bind_eq_ok_iff.mp h
      obtain ⟨happend, rfl⟩ := exec_written_eq_ok hwritten
      cases heq
      refine ⟨(base.join relation.path).index position, fun log ↦ ?_,
        hinside (get?_of_append happend)⟩
      rw [happend]
      rfl
    | false =>
      simp only [hmany, Bool.false_eq_true, if_false] at h ⊢
      obtain ⟨⟨_, left⟩, _, hwritten, heq⟩ := exec_bind_eq_ok_iff.mp h
      obtain ⟨hset, rfl⟩ := exec_written_eq_ok hwritten
      cases heq
      refine ⟨base.join relation.path, fun log ↦ ?_, hinside (get?_of_set hset)⟩
      rw [hset]
      rfl

/-- An element's value has no repeated key. -/
theorem element_answers {tag : Option String} {children : List Node}
    (hwf : (Node.element type props tag children).WellFormed context.supplies)
    (hfree : (Node.element type props tag children).TransformFree context.supplies) :
    Answers Json.WellFormed ((Piece.element type props children).compose context outer) :=
  (Answers.settleWith _).bind fun _ hexpand ↦
    weaveAll_answers children hwf.2 hfree (outer ++ [type]) .root (by simp)
      (FieldRules.expand_wellFormed hexpand hwf.1)

/-- Arrays keep the order of the tree. Let an element compose, and let its tree append something at
a path and write nothing else at, above or below it. Then the array there, in the document that
the element is put into, has the items that the properties hold and behind them one for each piece,
depth first, as the piece composes by itself. Any other children with the same pieces in the same
order make the same array, whatever they write elsewhere in between. -/
theorem element_lists {base : FieldPath} {result : Json} {tag : Option String}
    {children : List Node} {log after : PassLog}
    (hwf : (Node.element type props tag children).WellFormed context.supplies)
    (hfree : (Node.element type props tag children).TransformFree context.supplies)
    (honly : Write.OnlyFeed path (writesOfAll context (outer ++ [type]) .root children))
    (hfed : Write.feeders path (writesOfAll context (outer ++ [type]) .root children) ≠ [])
    (hexec : exec (weave context outer base document (.element type props tag children)) log =
      (.ok result, after)) :
    ∃ relation place value,
      locate context.schema outer type tag = .ok relation ∧
      (Piece.element type props children).Yields context outer value ∧
      (∀ log, exec (putElementTraced relation base document value) log =
        (.ok (place, result), log)) ∧
      result.get? (place.join path) = value.get? path ∧
      ListsItems context outer type props path
        (Write.feeders path (writesOfAll context (outer ++ [type]) .root children)) value ∧
      ∀ others : List Node, Node.AllTransformFree context.supplies others →
        Write.OnlyFeed path (writesOfAll context (outer ++ [type]) .root others) →
        Write.feeders path (writesOfAll context (outer ++ [type]) .root others) =
          Write.feeders path (writesOfAll context (outer ++ [type]) .root children) →
        ∀ other, (Piece.element type props others).Yields context outer other →
          other.get? path = value.get? path := by
  rw [weave_element_eq] at hexec
  obtain ⟨relation, _, hlocate, hthen⟩ := exec_bind_eq_ok_iff.mp hexec
  rw [exec_settleWith] at hlocate
  obtain ⟨value, middle, hvalue, hput⟩ := exec_bind_eq_ok_iff.mp hthen
  have hyields := Piece.yields_of_exec hvalue
  have hlists := listsItems_of_yields hfree honly hfed hyields
  have hwellFormed := element_answers hwf hfree _ _ _ hvalue
  obtain ⟨place, hplaced, hread⟩ := putElement_place path hwellFormed hput
  refine ⟨relation, place, value, congrArg Prod.fst hlocate, hyields, hplaced, ?_, hlists, ?_⟩
  · obtain ⟨fields, old, items, -, -, -, hvalue⟩ := hlists
    rw [hvalue]
    exact hread _ hvalue
  · intro others hothers hsame hfeeders other hother
    refine hlists.unique ?_
    rw [← hfeeders]
    exact listsItems_of_yields hothers hsame (hfeeders ▸ hfed) hother

/-- A container and an item with a name inside, between which a kind is written, come behind the
item of the properties; the kind may as well come first. -/
theorem element_lists_two_containers :
    let pod : TypeName := ⟨"Pod"⟩
    let containers : FieldPath := .ofKeys ["containers"]
    let relation : Relation := ⟨⟨"Container"⟩, pod, containers, true, none⟩
    let relations : Relations := ⟨[(pod, [relation])], [((pod, relation.child), .only relation)]⟩
    let context : Context := ⟨⟨relations, [], default⟩, "@", []⟩
    let web : Node := .element relation.child [("name", .string "web")] none []
    let kind : Node := .literal (.ofKeys ["kind"]) (some (.string "Pod")) false []
    let name : Node := .literal (.ofKeys ["name"]) (some (.string "proxy")) false []
    let proxy : Node := .component "sidecar" (.yield (.literal containers none true [name]))
    let props : Members := [("containers", .array [.bool true])]
    let items : List Json := [.bool true, .object [("name", .string "web")],
      .object [("name", .string "proxy")]]
    let result : Json := .object [("containers", .array items), ("kind", .string "Pod")]
    let tree : Node := .element pod props none [web, kind, proxy]
    let log : PassLog := ⟨["sidecar"], [], [], 0⟩
    tree.WellFormed context.supplies ∧ tree.TransformFree context.supplies ∧
      Write.OnlyFeed containers (writesOfAll context [pod] .root [web, kind, proxy]) ∧
      Write.feeders containers (writesOfAll context [pod] .root [web, kind, proxy]) =
        [.element relation.child [("name", .string "web")] [], .item none [name]] ∧
      exec (weave context [] .root .null tree) PassLog.empty = (.ok result, log) ∧
      ∀ other, (Piece.element pod props [kind, web, proxy]).Yields context [] other →
        other.get? containers = some (.array items) := by
  intro pod containers relation relations context web kind name proxy props items result tree log
  have hwf : tree.WellFormed context.supplies := by
    simp [tree, web, kind, proxy, name, props, Node.WellFormed, Node.AllWellFormed,
      Script.WellFormed, Json.WellFormed, MembersWellFormed, ItemsWellFormed]
  have hfree : tree.TransformFree context.supplies :=
    ⟨trivial, trivial, ⟨trivial, trivial⟩, trivial⟩
  have hfeeders : Write.feeders containers (writesOfAll context [pod] .root [web, kind, proxy]) =
      [.element relation.child [("name", .string "web")] [], .item none [name]] := rfl
  have honly : Write.OnlyFeed containers (writesOfAll context [pod] .root [web, kind, proxy]) := by
    decide
  have hothers :
      Write.OnlyFeed containers (writesOfAll context [pod] .root [kind, web, proxy]) := by
    decide
  have hexec : exec (weave context [] .root .null tree) PassLog.empty = (.ok result, log) := rfl
  obtain ⟨_, place, value, hlocate, -, hplaced, hread, -, hunique⟩ :=
    element_lists hwf hfree honly (by simp [hfeeders]) hexec
  cases hlocate
  obtain ⟨_, _, _, hplace⟩ := exec_bind_eq_ok_iff.mp (hplaced log)
  have hroot : FieldPath.root = place :=
    congrArg Prod.fst (Except.ok.inj (congrArg Prod.fst hplace))
  refine ⟨hwf, hfree, honly, hfeeders, hexec, fun other hother ↦ ?_⟩
  have hsame := hunique [kind, web, proxy] ⟨trivial, trivial, ⟨trivial, trivial⟩, trivial⟩ hothers
    rfl other hother
  rw [hsame, ← hread, ← hroot]
  rfl

end Element

end Compose
end ManifestTree
