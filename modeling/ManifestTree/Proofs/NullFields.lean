import ManifestTree.Proofs.WriterOutcomes

/-!
# Null as a field

A literal may write null, and then null occupies its place. What is nested under the literal cannot
be set there, appended there or put further inside: the first part that tries makes the pass fail.
Only what is laid over the place itself replaces the null, which is how transforms and elements
outside every element are composed; what a tree does first at a place is therefore read off the
tree. Nothing is said about a null that a later part of the tree finds.
-/

namespace ManifestTree

open Json Weaving

/-! ## What a tree does first -/

/-- How a tree starts to write at its base. -/
inductive Opening where
  /-- Something is set or appended, or laid over a place inside the base. -/
  | enters
  | lays
  deriving DecidableEq, Repr

/-- The opening as seen from the start of a path to the base. -/
def Opening.under (path : FieldPath) : Opening → Opening
  | .enters => .enters
  | .lays => if path = .root then .lays else .enters

mutual

/-- What the node writes first, if it writes at all; it stands outside every element or not. -/
def Node.opening? (supplies : Supplies) (outermost : Bool) : Node → Option Opening
  | .fragment children => Node.openingOfAll? supplies outermost children
  | .element _ _ _ _ => some (if outermost then .lays else .enters)
  | .literal path value isItem children =>
    if isItem || value.isSome then some .enters
    else (Node.openingOfAll? supplies outermost children).map (Opening.under path)
  | .transform _ _ => some .lays
  | .component _ script => script.opening? supplies outermost

def Node.openingOfAll? (supplies : Supplies) (outermost : Bool) : List Node → Option Opening
  | [] => none
  | node :: rest =>
    (node.opening? supplies outermost).or (Node.openingOfAll? supplies outermost rest)

/-- What the tree that the script yields writes first. -/
def Script.opening? (supplies : Supplies) (outermost : Bool) : Script → Option Opening
  | .yield node => node.opening? supplies outermost
  | .suspend => none
  | .read handle next => (next (supplies.value? handle)).opening? supplies outermost
  | .require _ _ next => next.opening? supplies outermost

end

theorem FieldPath.join_eq_root_iff {base path : FieldPath} :
    base.join path = .root ↔ base = .root ∧ path = .root := by
  cases base
  cases path
  simp [FieldPath.join, FieldPath.root]

theorem Opening.under_under (base path : FieldPath) (opening : Opening) :
    (opening.under path).under base = opening.under (base.join path) := by
  cases opening with
  | enters => rfl
  | lays =>
    by_cases hpath : path = .root
    · simp [under, FieldPath.join_eq_root_iff, hpath]
    · simp [under, FieldPath.join_eq_root_iff, hpath]

/-! ## Writing where null stands -/

namespace Json

variable {document : Json} {front : FieldPath}

/-- A writer gets through a null only where it works on the null itself. -/
theorem write_fst_ne_ok {α : Type} {action : Action α} (h : document.get? front = some null)
    (hfront : front ≠ .root) {inner : FieldPath}
    (haction : inner = .root → ∀ answer, (action (some null)).1 ≠ .ok answer) (answer : α) :
    (document.write (front.join inner) action).1 ≠ .ok answer := by
  have hsteps : (front.join inner).steps = front.steps ++ inner.steps := rfl
  rw [write_fst_of_reads action (ne_null_of_get? h hfront) h hsteps]
  rcases inner with ⟨_ | ⟨step, rest⟩⟩
  · exact haction rfl answer
  · cases step <;> exact nofun

theorem set_fst_ne_ok (h : document.get? front = some null) (hfront : front ≠ .root)
    (inner : FieldPath) (value : Json) (answer : Unit) :
    (document.set (front.join inner) value).1 ≠ .ok answer := by
  refine write_fst_ne_ok h hfront (fun _ _ hok ↦ ?_) answer
  cases hok

theorem append_fst_ne_ok (h : document.get? front = some null) (hfront : front ≠ .root)
    (inner : FieldPath) (value : Json) (answer : Nat) :
    (document.append (front.join inner) value).1 ≠ .ok answer := by
  refine write_fst_ne_ok h hfront (fun _ _ hok ↦ ?_) answer
  cases hok

theorem mergeAt_fst_ne_ok (h : document.get? front = some null) (hfront : front ≠ .root)
    {inner : FieldPath} (hinner : inner ≠ .root) (value : Json) (answer : Unit) :
    (document.mergeAt (front.join inner) value).1 ≠ .ok answer :=
  write_fst_ne_ok h hfront (fun hroot ↦ absurd hroot hinner) answer

end Json

/-! ## Parts that fail -/

namespace Weaving

variable {α β : Type}

def Fails (part : Weaving α) : Prop := Answers (fun _ ↦ False) part

theorem Fails.exists_failure {part : Weaving α} (h : Fails part) (log : PassLog) :
    ∃ failure after, exec part log = (.error failure, after) := by
  rcases hexec : exec part log with ⟨failure | answer, after⟩
  · exact ⟨failure, after, rfl⟩
  · exact (h log answer after hexec).elim

theorem Fails.bind {part : Weaving α} (h : Fails part) (next : α → Weaving β) :
    Fails (part >>= next) :=
  Answers.bind h fun _ hfalse ↦ hfalse.elim

/-- A part fails when it fails after whatever comes first. -/
theorem Fails.after (part : Weaving α) {next : α → Weaving β} (h : ∀ answer, Fails (next answer)) :
    Fails (part >>= next) :=
  Answers.bind (fun _ _ _ _ ↦ trivial : Answers (fun _ ↦ True) part) fun answer _ ↦ h answer

theorem Fails.written {outcome : Except Failure α × Json} (h : ∀ answer, outcome.1 ≠ .ok answer) :
    Fails (Compose.written outcome) := by
  intro log answer after hexec
  have houtcome := Answers.written outcome log answer after hexec
  exact h answer.1 (congrArg Prod.fst houtcome)

/-- A part does to a document with a null in it what its opening says: it fails where something has
to enter the null, and leaves the document as it was where nothing is written. -/
def Follows (document : Json) (part : Weaving Json) : Option Opening → Prop
  | none => Answers (· = document) part
  | some .enters => Fails part
  | some .lays => True

namespace Follows

variable {document : Json} {opening : Option Opening}

theorem after (part : Weaving α) {next : α → Weaving Json}
    (h : ∀ answer, Follows document (next answer) opening) :
    Follows document (part >>= next) opening := by
  match opening with
  | none =>
    exact Answers.bind (fun _ _ _ _ ↦ trivial : Answers (fun _ ↦ True) part) fun answer _ ↦ h answer
  | some .enters => exact Fails.after part h
  | some .lays => trivial

/-- One part after another opens with what the first writes, or else the second. -/
theorem bind {part : Weaving Json} {next : Json → Weaving Json} {second : Option Opening}
    (h : Follows document part opening) (hnext : Follows document (next document) second) :
    Follows document (part >>= next) (opening.or second) := by
  match opening with
  | none =>
    match second with
    | none => exact Answers.bind h fun _ heq ↦ heq ▸ hnext
    | some .enters => exact Answers.bind h fun _ heq ↦ heq ▸ hnext
    | some .lays => trivial
  | some .enters => exact Fails.bind h next
  | some .lays => trivial

end Follows

end Weaving

/-! ## Composing where null stands -/

namespace Compose

variable {context : Context} {document : Json} {front : FieldPath}

theorem putElement_fails (h : document.get? front = some null) (hfront : front ≠ .root)
    {inner : FieldPath} {relation : Option Relation} (hrelation : relation = none → inner ≠ .root)
    (value : Json) : Fails (putElement relation (front.join inner) document value) := by
  cases relation with
  | none => exact (Fails.written (mergeAt_fst_ne_ok h hfront (hrelation rfl) value)).bind _
  | some relation =>
    rw [putElement, FieldPath.join_assoc]
    split
    · exact (Fails.written (append_fst_ne_ok h hfront _ value)).bind _
    · exact (Fails.written (set_fst_ne_ok h hfront _ value)).bind _

theorem putLiteral_fails (h : document.get? front = some null) (hfront : front ≠ .root)
    (inner path : FieldPath) {value : Option Json} {isItem : Bool}
    (hwrites : (isItem || value.isSome) = true) :
    Fails (putLiteral (front.join inner) path value isItem document) := by
  unfold putLiteral
  rw [FieldPath.join_assoc]
  split
  · exact (Fails.written (append_fst_ne_ok h hfront _ _)).bind _
  · next hitem =>
    cases value with
    | none => simp [hitem] at hwrites
    | some value => exact (Fails.written (set_fst_ne_ok h hfront _ value)).bind _

/-- Outside every element there is no relation, and inside one there is. -/
theorem relation_eq_none_iff {schema : Schema} {enclosing : List TypeName} {type : TypeName}
    {tag : Option String} {relation : Option Relation}
    (h : locate schema enclosing type tag = .ok relation) :
    relation = none ↔ enclosing.isEmpty = true := by
  cases enclosing with
  | nil =>
    cases h
    simp
  | cons first rest =>
    obtain ⟨found, rfl⟩ := locate_eq_some (by simp) h
    simp

mutual

/-- A node composed at or below a null follows its opening. -/
theorem weave_follows (h : document.get? front = some null) (hfront : front ≠ .root)
    (enclosing : List TypeName) :
    ∀ (node : Node) (inner : FieldPath),
      Follows document (weave context enclosing (front.join inner) document node)
        ((node.opening? context.supplies enclosing.isEmpty).map (Opening.under inner))
  | .fragment children, inner => by
    rw [weave, Node.opening?]
    exact weaveAll_follows h hfront enclosing children inner
  | .element type props tag children, inner => by
    rw [weave, Node.opening?, Option.map_some]
    by_cases hlays : enclosing.isEmpty = true ∧ inner = .root
    · rw [if_pos hlays.1, Opening.under, if_pos hlays.2]
      trivial
    · have henters : Opening.under inner (if enclosing.isEmpty then .lays else .enters) =
          .enters := by
        split
        · next hempty => exact if_neg fun hroot ↦ hlays ⟨hempty, hroot⟩
        · rfl
      rw [henters]
      refine Answers.bind (Answers.settleWith _) fun relation hlocate ↦ ?_
      refine Fails.after _ fun fields ↦ Fails.after _ fun value ↦ ?_
      refine putElement_fails h hfront (fun hnone hroot ↦ hlays ⟨?_, hroot⟩) value
      exact (relation_eq_none_iff hlocate).mp hnone
  | .literal path value isItem children, inner => by
    rw [weave, Node.opening?]
    split
    · next hwrites => exact (putLiteral_fails h hfront inner path hwrites).bind _
    · next hopen =>
      obtain ⟨rfl, rfl⟩ : isItem = false ∧ value = none := by
        cases isItem <;> cases value <;> simp_all
      have hchildren := weaveAll_follows h hfront enclosing children (inner.join path)
      rw [Option.map_map]
      simp only [putLiteral, Bool.false_eq_true, if_false, pure_bind, FieldPath.join_assoc]
      convert hchildren using 2
      exact funext fun opening ↦ Opening.under_under inner path opening
  | .transform rewrite children, inner => by
    rw [weave, Node.opening?, Option.map_some]
    by_cases hinner : inner = .root
    · rw [Opening.under, if_pos hinner]
      trivial
    · rw [Opening.under, if_neg hinner]
      refine Fails.after _ fun scratch ↦ ?_
      exact (Fails.written (mergeAt_fst_ne_ok h hfront hinner _)).bind _
  | .component name script, inner => by
    rw [weave, Node.opening?]
    exact Follows.after _ fun _ ↦ weaveScript_follows h hfront enclosing name script inner

/-- So do several nodes. -/
theorem weaveAll_follows (h : document.get? front = some null) (hfront : front ≠ .root)
    (enclosing : List TypeName) :
    ∀ (nodes : List Node) (inner : FieldPath),
      Follows document (weaveAll context enclosing (front.join inner) document nodes)
        ((Node.openingOfAll? context.supplies enclosing.isEmpty nodes).map (Opening.under inner))
  | [], _ => Answers.pure rfl
  | node :: rest, inner => by
    rw [weaveAll, Node.openingOfAll?, Option.map_or]
    exact (weave_follows h hfront enclosing node inner).bind
      (weaveAll_follows h hfront enclosing rest inner)

/-- And the tree that a script yields. -/
theorem weaveScript_follows (h : document.get? front = some null) (hfront : front ≠ .root)
    (enclosing : List TypeName) (owner : String) :
    ∀ (script : Script) (inner : FieldPath),
      Follows document (weaveScript context owner enclosing (front.join inner) document script)
        ((script.opening? context.supplies enclosing.isEmpty).map (Opening.under inner))
  | .yield node, inner => weave_follows h hfront enclosing node inner
  | .suspend, _ => by
    rw [weaveScript]
    exact Answers.bind (Answers.note _) fun _ _ ↦ Answers.pure rfl
  | .read handle next, inner => by
    have hnext := weaveScript_follows h hfront enclosing owner
      (next (context.supplies.value? handle)) inner
    rw [Script.opening?]
    cases hvalue : context.supplies.value? handle with
    | some value =>
      rw [weaveScript_read_of_some hvalue, ← hvalue]
      exact hnext
    | none =>
      rw [weaveScript_read_of_none hvalue, ← hvalue]
      exact Follows.after _ fun _ ↦ hnext
  | .require message check next, inner => by
    rw [weaveScript, Script.opening?]
    exact Follows.after _ fun _ ↦ weaveScript_follows h hfront enclosing owner next inner

end

/-- Seen from the root, an opening is itself. -/
theorem map_under_root (opening : Option Opening) :
    opening.map (Opening.under .root) = opening := by
  rcases opening with _ | ⟨_ | _⟩ <;> rfl

section NullLiteral

variable {enclosing : List TypeName} {base path : FieldPath} {members : Members}
  {children : List Node}

/-- The nodes under a null literal follow their opening, in a document that holds the null. -/
theorem weave_nullLiteral {property : Json → Prop}
    (h : ∀ document : Json, document.get? (base.join path) = some .null →
      Follows document (weaveAll context enclosing (base.join path) document children)
        (Node.openingOfAll? context.supplies enclosing.isEmpty children) →
      Answers property (weaveAll context enclosing (base.join path) document children)) :
    Answers property (weave context enclosing base (.object members)
      (.literal path (some .null) false children)) := by
  rw [weave]
  have hput : Answers (fun answer ↦ answer.1 = base.join path ∧ base.join path ≠ .root ∧
      answer.2.get? (base.join path) = some .null)
      (putLiteral base path (some .null) false (.object members)) := by
    refine (Answers.written _).bind fun answer hset ↦ Answers.pure ⟨rfl, ?_, get?_of_set hset⟩
    intro hroot
    rw [hroot] at hset
    cases hset
  refine hput.bind ?_
  rintro ⟨inner, document⟩ ⟨rfl, hroot, hnull⟩
  refine h document hnull ?_
  rw [← map_under_root (Node.openingOfAll? _ _ _), ← FieldPath.join_root (base.join path)]
  exact weaveAll_follows hnull hroot enclosing children .root

/-- A literal that writes null into an object: what is nested under it and does not start by laying
something over the null fails as soon as it writes; where it writes nothing, the null stays. -/
theorem null_blocks_nested
    (h : Node.openingOfAll? context.supplies enclosing.isEmpty children ≠ some .lays)
    (log : PassLog) :
    (Node.openingOfAll? context.supplies enclosing.isEmpty children = some .enters →
      ∃ failure after, exec (weave context enclosing base (.object members)
        (.literal path (some .null) false children)) log = (.error failure, after)) ∧
    ∀ result after, exec (weave context enclosing base (.object members)
        (.literal path (some .null) false children)) log = (.ok result, after) →
      result.get? (base.join path) = some .null := by
  constructor
  · intro henters
    refine Fails.exists_failure (weave_nullLiteral fun document _ hfollows ↦ ?_) log
    rw [henters] at hfollows
    exact hfollows
  · refine weave_nullLiteral (fun document hnull hfollows ↦ ?_) log
    match hopening : Node.openingOfAll? context.supplies enclosing.isEmpty children with
    | none =>
      rw [hopening] at hfollows
      intro log result after hexec
      rw [hfollows log result after hexec]
      exact hnull
    | some .enters =>
      rw [hopening] at hfollows
      exact fun log result after hexec ↦ (hfollows log result after hexec).elim
    | some .lays => exact absurd hopening h

/-- An image cannot be put into a sidecar that is null, also not by a component. -/
theorem null_blocks_nested_image :
    let context : Context := ⟨⟨⟨[], []⟩, [], default⟩, "@", []⟩
    let image : Node := .literal (.ofKeys ["image"]) (some (.string "proxy")) false []
    let children : List Node := [.component "Proxy" (.yield (.fragment [image]))]
    Node.openingOfAll? context.supplies false children ≠ some .lays ∧
      ∃ failure after, exec (weave context [⟨"Container"⟩] .root (.object [])
        (.literal (.ofKeys ["sidecar"]) (some .null) false children)) PassLog.empty =
          (.error failure, after) := by
  intro context image children
  have h : Node.openingOfAll? context.supplies false children ≠ some .lays := by decide
  exact ⟨h, (null_blocks_nested h PassLog.empty).1 rfl⟩

/-- Two parts that replace the null above them without a failure: a transform, inside an element,
and an element outside every element. -/
theorem null_replaced_by_laying :
    let context : Context := ⟨⟨⟨[], []⟩, [], default⟩, "@", []⟩
    let sidecar : FieldPath := .ofKeys ["sidecar"]
    let before : Members := [("name", .string "app")]
    let proxy : Json := .object [("image", .string "proxy")]
    let after : Json := .object [("name", .string "app"), ("sidecar", proxy)]
    let transform : Node := .transform (fun _ ↦ proxy) []
    let element : Node := .element ⟨"Proxy"⟩ [("image", .string "proxy")] none []
    (Json.object before).get? sidecar = none ∧
      exec (weave context [⟨"Container"⟩] .root (.object before)
        (.literal sidecar (some .null) false [transform])) PassLog.empty =
          (.ok after, PassLog.empty) ∧
      exec (weave context [] .root (.object before)
        (.literal sidecar (some .null) false [element])) PassLog.empty =
          (.ok after, PassLog.empty) :=
  ⟨rfl, rfl, rfl⟩

end NullLiteral

end Compose
end ManifestTree
