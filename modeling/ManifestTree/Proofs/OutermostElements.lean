import ManifestTree.Proofs.Deposits
import ManifestTree.Proofs.Scalars

/-!
# Elements outside every element

Outside every element an element is laid over what stands at its base, and where the two clash its
value is the one that stays. A twin of composing writes down what it deposits in each document, and
every property and every literal value of a tree is shown by a deposit. So each document keeps all
of its author's values except those that a later element without an enclosing one overrules. Inside
an element nothing is laid, so nothing is lost. Transforms are left out.
-/

namespace ManifestTree

open Json Compose

/-! ## The values of a tree -/

mutual

/-- The values of the properties and literals of a tree, in the components as they render with the
supplies of the context. An opened property counts with its members. -/
def Node.values (context : Context) : Node → List Json
  | .fragment children => Node.allValues context children
  | .element type props _ children =>
    ((context.schema.rulesOf type).homes context.marker props).map Placement.value ++
      Node.allValues context children
  | .literal _ value _ children => value.toList ++ Node.allValues context children
  | .transform _ _ => []
  | .component _ script => script.values context

def Node.allValues (context : Context) : List Node → List Json
  | [] => []
  | node :: rest => node.values context ++ Node.allValues context rest

/-- The values of the tree that the script yields, if any. -/
def Script.values (context : Context) : Script → List Json
  | .yield node => node.values context
  | .suspend => []
  | .read handle next => (next (context.supplies.value? handle)).values context
  | .require _ _ next => next.values context

end

namespace Compose

open Weaving

/-! ## The pass that writes down deposits -/

/-- The deposit of a literal's own write, if there is one. An item without a value becomes an empty
object, which is no value of the author. -/
def ownDeposit (document : Json) (place : FieldPath) (value : Option Json) (isItem : Bool) :
    List Deposit :=
  if value.isSome || isItem then
    [⟨document, place, value.getD (.object []), false, value.toList.map (Placement.mk place)⟩]
  else []

mutual

/-- `weave` with what it deposits in the document. What goes into the value of an element comes with
the deposit of that value. -/
def weaveDeposits (context : Context) (enclosing : List TypeName) (base : FieldPath)
    (document : Json) : Node → Weaving (Json × List Deposit)
  | .fragment children => weaveAllDeposits context enclosing base document children
  | .element type props tag children => do
    let relation ← settleWith (locate context.schema enclosing type tag)
    let fields ← settleWith ((context.schema.rulesOf type).expand context.marker props)
    let (value, inner) ←
      weaveAllDeposits context (enclosing ++ [type]) FieldPath.root (.object fields) children
    let (place, result) ← putElementTraced relation base document value
    let shown :=
      (context.schema.rulesOf type).homes context.marker props ++ Deposit.shownIn inner
    pure (result,
      [⟨document, place, value, relation.isNone, shown.map (Placement.under place)⟩])
  | .literal path value isItem children => do
    let (place, written) ← putLiteral base path value isItem document
    let (result, deposits) ← weaveAllDeposits context enclosing place written children
    pure (result, ownDeposit document place value isItem ++ deposits)
  | .transform rewrite children => do
    pure (← weave context enclosing base document (.transform rewrite children), [])
  | .component name script => do
    note fun log ↦ log.addRendered name
    weaveScriptDeposits context name enclosing base document script

def weaveAllDeposits (context : Context) (enclosing : List TypeName) (base : FieldPath)
    (document : Json) : List Node → Weaving (Json × List Deposit)
  | [] => pure (document, [])
  | node :: rest => do
    let (middle, front) ← weaveDeposits context enclosing base document node
    let (result, back) ← weaveAllDeposits context enclosing base middle rest
    pure (result, front ++ back)

def weaveScriptDeposits (context : Context) (owner : String) (enclosing : List TypeName)
    (base : FieldPath) (document : Json) : Script → Weaving (Json × List Deposit)
  | .yield node => weaveDeposits context enclosing base document node
  | .suspend => do
    note PassLog.addSuspended
    pure (document, [])
  | .read handle next => do
    let value := context.supplies.value? handle
    if value.isNone then note fun log ↦ log.addPending handle
    weaveScriptDeposits context owner enclosing base document (next value)
  | .require message check next => do
    note fun log ↦ log.addRequirement ⟨owner, message, check⟩
    weaveScriptDeposits context owner enclosing base document next

end

def documentDeposits (context : Context) (node : Node) : Weaving (Json × List Deposit) := do
  match ← weaveDeposits context [] FieldPath.root .null node with
  | (.null, deposits) => pure (.object [], deposits)
  | (document, deposits) => pure (document, deposits)

mutual

def collectDeposits (context : Context) : Node → Weaving (List (Json × List Deposit))
  | .fragment children => collectAllDeposits context children
  | .component name script => do
    note fun log ↦ log.addRendered name
    collectScriptDeposits context name script
  | .element type props tag children => do
    pure [← documentDeposits context (.element type props tag children)]
  | .literal path value isItem children => do
    pure [← documentDeposits context (.literal path value isItem children)]
  | .transform rewrite children => do
    pure [← documentDeposits context (.transform rewrite children)]

def collectAllDeposits (context : Context) : List Node → Weaving (List (Json × List Deposit))
  | [] => pure []
  | node :: rest => do
    let front ← collectDeposits context node
    let back ← collectAllDeposits context rest
    pure (front ++ back)

/-- `collectScript` with what goes into each document. -/
def collectScriptDeposits (context : Context) (owner : String) :
    Script → Weaving (List (Json × List Deposit))
  | .yield node => collectDeposits context node
  | .suspend => do
    note PassLog.addSuspended
    pure []
  | .read handle next => do
    let value := context.supplies.value? handle
    if value.isNone then note fun log ↦ log.addPending handle
    collectScriptDeposits context owner (next value)
  | .require message check next => do
    note fun log ↦ log.addRequirement ⟨owner, message, check⟩
    collectScriptDeposits context owner next

end

/-! ## Without the deposits it is the pass -/

mutual

theorem map_fst_weaveDeposits (context : Context) : ∀ (node : Node) (enclosing : List TypeName)
    (base : FieldPath) (document : Json),
    Prod.fst <$> weaveDeposits context enclosing base document node =
      weave context enclosing base document node
  | .fragment children, enclosing, base, document => by
    rw [weaveDeposits, weave]
    exact map_fst_weaveAllDeposits context children enclosing base document
  | .element type props tag children, enclosing, base, document => by
    rw [weaveDeposits, weave]
    simp only [map_bind, map_pure]
    refine bind_congr fun relation ↦ bind_congr fun fields ↦ ?_
    rw [← map_fst_weaveAllDeposits context children, bind_map_left]
    refine bind_congr fun inner ↦ ?_
    rw [← map_snd_putElementTraced, map_eq_pure_bind]
  | .literal path value isItem children, enclosing, base, document => by
    rw [weaveDeposits, weave]
    simp only [map_bind, map_pure]
    refine bind_congr fun own ↦ ?_
    rw [← map_fst_weaveAllDeposits context children, map_eq_pure_bind]
  | .transform rewrite children, enclosing, base, document => by
    rw [weaveDeposits, map_bind]
    simp
  | .component name script, enclosing, base, document => by
    rw [weaveDeposits, weave, map_bind]
    exact bind_congr fun _ ↦
      map_fst_weaveScriptDeposits context name script enclosing base document

theorem map_fst_weaveAllDeposits (context : Context) : ∀ (nodes : List Node)
    (enclosing : List TypeName) (base : FieldPath) (document : Json),
    Prod.fst <$> weaveAllDeposits context enclosing base document nodes =
      weaveAll context enclosing base document nodes
  | [], enclosing, base, document => by
    rw [weaveAllDeposits, weaveAll, map_pure]
  | node :: rest, enclosing, base, document => by
    rw [weaveAllDeposits, weaveAll, ← map_fst_weaveDeposits context node, bind_map_left]
    simp only [map_bind, map_pure]
    refine bind_congr fun front ↦ ?_
    rw [← map_fst_weaveAllDeposits context rest, map_eq_pure_bind]

theorem map_fst_weaveScriptDeposits (context : Context) (owner : String) : ∀ (script : Script)
    (enclosing : List TypeName) (base : FieldPath) (document : Json),
    Prod.fst <$> weaveScriptDeposits context owner enclosing base document script =
      weaveScript context owner enclosing base document script
  | .yield node, enclosing, base, document => by
    rw [weaveScriptDeposits, weaveScript]
    exact map_fst_weaveDeposits context node enclosing base document
  | .suspend, enclosing, base, document => by
    rw [weaveScriptDeposits, weaveScript, map_bind]
    rfl
  | .read handle next, enclosing, base, document => by
    rw [weaveScriptDeposits, weaveScript]
    have hnext := map_fst_weaveScriptDeposits context owner
      (next (context.supplies.value? handle)) enclosing base document
    split
    · rw [map_bind]
      exact bind_congr fun _ ↦ hnext
    · exact hnext
  | .require message check next, enclosing, base, document => by
    rw [weaveScriptDeposits, weaveScript, map_bind]
    exact bind_congr fun _ ↦
      map_fst_weaveScriptDeposits context owner next enclosing base document

end

theorem map_fst_documentDeposits (context : Context) (node : Node) :
    Prod.fst <$> documentDeposits context node = documentOf context node := by
  rw [documentDeposits, documentOf, ← map_fst_weaveDeposits, bind_map_left, map_bind]
  refine bind_congr fun answer ↦ ?_
  rcases answer with ⟨document, deposits⟩
  cases document <;> rfl

mutual

theorem map_fst_collectDeposits (context : Context) : ∀ node : Node,
    List.map Prod.fst <$> collectDeposits context node = collect context node
  | .fragment children => by
    rw [collectDeposits, collect]
    exact map_fst_collectAllDeposits context children
  | .component name script => by
    rw [collectDeposits, collect, map_bind]
    exact bind_congr fun _ ↦ map_fst_collectScriptDeposits context name script
  | .element type props tag children => by
    rw [collectDeposits, collect, ← map_fst_documentDeposits, bind_map_left]
    simp
  | .literal path value isItem children => by
    rw [collectDeposits, collect, ← map_fst_documentDeposits, bind_map_left]
    simp
  | .transform rewrite children => by
    rw [collectDeposits, collect, ← map_fst_documentDeposits, bind_map_left]
    simp

theorem map_fst_collectAllDeposits (context : Context) : ∀ nodes : List Node,
    List.map Prod.fst <$> collectAllDeposits context nodes = collectAll context nodes
  | [] => by
    rw [collectAllDeposits, collectAll, map_pure, List.map_nil]
  | node :: rest => by
    rw [collectAllDeposits, collectAll, ← map_fst_collectDeposits context node, bind_map_left]
    simp only [map_bind, map_pure, List.map_append]
    refine bind_congr fun front ↦ ?_
    rw [← map_fst_collectAllDeposits context rest, bind_map_left]

theorem map_fst_collectScriptDeposits (context : Context) (owner : String) : ∀ script : Script,
    List.map Prod.fst <$> collectScriptDeposits context owner script =
      collectScript context owner script
  | .yield node => by
    rw [collectScriptDeposits, collectScript]
    exact map_fst_collectDeposits context node
  | .suspend => by
    rw [collectScriptDeposits, collectScript, map_bind]
    rfl
  | .read handle next => by
    rw [collectScriptDeposits, collectScript]
    have hnext := map_fst_collectScriptDeposits context owner
      (next (context.supplies.value? handle))
    split
    · rw [map_bind]
      exact bind_congr fun _ ↦ hnext
    · exact hnext
  | .require message check next => by
    rw [collectScriptDeposits, collectScript, map_bind]
    exact bind_congr fun _ ↦ map_fst_collectScriptDeposits context owner next

end

/-! ## What the deposits of a run account for -/

/-- The deposits lead from one document to the other and show the values in their order; inside an
element none of them is laid. -/
structure Accounts (enclosing : List TypeName) (values : List Json) (document result : Json)
    (deposits : List Deposit) : Prop where
  /-- Each deposit goes into the document that the one before it left. -/
  chronicle : Chronicle document deposits result
  inside : enclosing ≠ [] → ∀ deposit ∈ deposits, ¬ deposit.isLaid
  complete : (Deposit.shownIn deposits).map Placement.value = values

/-- Whenever the part answers, its deposits account for the values. -/
abbrev AccountsFor (enclosing : List TypeName) (values : List Json) (document : Json)
    (part : Weaving (Json × List Deposit)) : Prop :=
  Answers (fun answer ↦ Accounts enclosing values document answer.1 answer.2) part

section Accounting

variable {enclosing : List TypeName} {document middle result : Json}

theorem Accounts.nil (document : Json) : Accounts enclosing [] document document [] where
  chronicle := .nil document
  inside := fun _ ↦ nofun
  complete := rfl

theorem Accounts.append {values others : List Json} {front back : List Deposit}
    (hfront : Accounts enclosing values document middle front)
    (hback : Accounts enclosing others middle result back) :
    Accounts enclosing (values ++ others) document result (front ++ back) where
  chronicle := hfront.chronicle.append hback.chronicle
  inside := fun henclosing ↦
    List.forall_mem_append.mpr ⟨hfront.inside henclosing, hback.inside henclosing⟩
  complete := by
    rw [Deposit.shownIn, List.flatMap_append, List.map_append]
    exact congrArg₂ _ hfront.complete hback.complete

/-- A single deposit accounts for what it shows. -/
theorem Accounts.single {deposit : Deposit} {values : List Json} (hyields : deposit.Yields result)
    (hinside : enclosing ≠ [] → ¬ deposit.isLaid)
    (hvalues : deposit.shown.map Placement.value = values) :
    Accounts enclosing values deposit.before result [deposit] where
  chronicle := .single hyields
  inside := fun henclosing ↦ List.forall_mem_singleton.mpr (hinside henclosing)
  complete := by
    rw [Deposit.shownIn, List.flatMap_singleton]
    exact hvalues

/-- A part that goes on from what others deposited. -/
theorem AccountsFor.append {values others : List Json} {front : List Deposit}
    {part : Weaving (Json × List Deposit)}
    (hfront : Accounts enclosing values document middle front)
    (hback : AccountsFor enclosing others middle part) :
    AccountsFor enclosing (values ++ others) document
      (part >>= fun last ↦ pure (last.1, front ++ last.2)) :=
  hback.bind fun _ hlast ↦ Answers.pure (hfront.append hlast)

/-! ## The writers -/

/-- A value of a literal that was put somewhere is a deposit that shows it. -/
theorem ownDeposit_accounts {place : FieldPath} {value : Option Json} {isItem : Bool}
    (hwrites : value.isSome || isItem) (hgrows : document ≠ null → document.ExtendedBy result)
    (hfound : result.get? place = some (value.getD (.object []))) :
    Accounts enclosing value.toList document result (ownDeposit document place value isItem) := by
  have hyields : Deposit.Yields ⟨document, place, value.getD (.object []), false,
      value.toList.map (Placement.mk place)⟩ result :=
    { merged := nofun
      grows := fun _ ↦ hgrows
      stands := by
        cases value with
        | none => exact nofun
        | some value => exact List.forall_mem_singleton.mpr (Placement.standsIn_of_get? hfound) }
  rw [ownDeposit, if_pos hwrites]
  refine Accounts.single hyields (fun _ ↦ nofun) ?_
  rw [List.map_map]
  exact List.map_id _

/-- A literal's own write is accounted for by its own deposit. -/
theorem putLiteral_accounts (enclosing : List TypeName) {base path : FieldPath}
    {value : Option Json} {isItem : Bool} :
    Answers (fun answer ↦ Accounts enclosing value.toList document answer.2
        (ownDeposit document answer.1 value isItem))
      (putLiteral base path value isItem document) := by
  unfold putLiteral
  dsimp only
  split
  · next hitem =>
    refine (Answers.written _).bind fun answer happend ↦ Answers.pure ?_
    exact ownDeposit_accounts (by simp [hitem])
      (fun hdocument ↦ (append_extendedBy hdocument happend).1) (get?_of_append happend)
  · next hitem =>
    split
    · next written =>
      refine (Answers.written _).bind fun answer hset ↦ Answers.pure ?_
      exact ownDeposit_accounts rfl (fun hdocument ↦ (set_extendedBy hdocument hset).1)
        (get?_of_set hset)
    · refine Answers.pure ?_
      rw [ownDeposit, if_neg (by simpa using hitem)]
      exact Accounts.nil document

/-- The deposit of an element's value shows what its fields and its children show, seen from the
document. -/
theorem putElementTraced_yields {relation : Option Relation} {base : FieldPath} {value : Json}
    {shown : List Placement} (hvalue : value.WellFormed)
    (hshown : ∀ placement ∈ shown, placement.StandsIn value) :
    Answers (fun answer ↦ Deposit.Yields ⟨document, answer.1, value, relation.isNone,
      shown.map (Placement.under answer.1)⟩ answer.2)
      (putElementTraced relation base document value) := by
  unfold putElementTraced
  cases relation with
  | none =>
    refine (Answers.written _).bind fun answer hmerge ↦ Answers.pure ?_
    exact Deposit.yields_of_laid hvalue hmerge hshown
  | some relation =>
    dsimp only
    split
    · refine (Answers.written _).bind fun answer happend ↦ Answers.pure ?_
      exact Deposit.yields_of_put (fun hdocument ↦ (append_extendedBy hdocument happend).1)
        (get?_of_append happend) hshown
    · refine (Answers.written _).bind fun answer hset ↦ Answers.pure ?_
      exact Deposit.yields_of_put (fun hdocument ↦ (set_extendedBy hdocument hset).1)
        (get?_of_set hset) hshown

/-- The deposit of an element accounts for its properties and for what is inside it. -/
theorem putElement_accounts {relation : Option Relation} {base : FieldPath} {value : Json}
    {values : List Json} {homes : List Placement} {inner : List Deposit}
    {fields : Members} {type : TypeName}
    (hrelation : enclosing ≠ [] → relation.isSome) (hvalue : value.WellFormed)
    (hhomes : ∀ home ∈ homes, (object fields).get? home.path = some home.value)
    (hinner : Accounts (enclosing ++ [type]) values (object fields) value inner) :
    AccountsFor enclosing (homes.map Placement.value ++ values) document (do
      let put ← putElementTraced relation base document value
      pure (put.2, [⟨document, put.1, value, relation.isNone,
        (homes ++ Deposit.shownIn inner).map (Placement.under put.1)⟩])) := by
  obtain ⟨hextends, hstand⟩ := hinner.chronicle.grows (hinner.inside (by simp)) (by simp)
  have hshown : ∀ placement ∈ homes ++ Deposit.shownIn inner, placement.StandsIn value := by
    refine List.forall_mem_append.mpr ⟨fun home hmem ↦ ?_, hstand⟩
    exact (Placement.standsIn_of_get? (hhomes home hmem)).of_extendedBy hextends
  refine (putElementTraced_yields hvalue hshown).bind fun put hyields ↦ Answers.pure ?_
  refine Accounts.single hyields (fun henclosing ↦ ?_) ?_
  · obtain ⟨found, rfl⟩ := Option.isSome_iff_exists.mp (hrelation henclosing)
    nofun
  · rw [List.map_map]
    change (homes ++ Deposit.shownIn inner).map Placement.value = _
    rw [List.map_append, hinner.complete]

end Accounting

theorem answers_of_map_fst {α β : Type} {part : Weaving α} {traced : Weaving (α × β)}
    {property : α → Prop} (hpart : Prod.fst <$> traced = part) (h : Answers property part) :
    Answers (fun answer ↦ property answer.1) traced := by
  intro log answer after hexec
  refine h log answer.1 after ?_
  rw [← hpart, map_eq_pure_bind, exec_bind_of_ok hexec]
  rfl

mutual

/-- What a node composes into a document is accounted for by its deposits. -/
theorem weaveDeposits_accounts (context : Context) : ∀ node : Node,
    node.WellFormed context.supplies → node.TransformFree context.supplies →
      ∀ (enclosing : List TypeName) (base : FieldPath) (document : Json),
        AccountsFor enclosing (node.values context) document
          (weaveDeposits context enclosing base document node)
  | .fragment children, hwf, hfree, enclosing, base, document => by
    rw [weaveDeposits, Node.values]
    exact weaveAllDeposits_accounts context children hwf hfree enclosing base document
  | .element type props tag children, hwf, hfree, enclosing, base, document => by
    rw [weaveDeposits, Node.values]
    refine (Answers.settleWith _).bind fun relation hlocate ↦ ?_
    refine (Answers.settleWith _).bind fun fields hexpand ↦ ?_
    have hvalue : Answers Json.WellFormed
        (weaveAll context (enclosing ++ [type]) .root (.object fields) children) :=
      weaveAll_answers children hwf.2 hfree (enclosing ++ [type]) .root (by simp)
        (FieldRules.expand_wellFormed hexpand hwf.1)
    refine ((weaveAllDeposits_accounts context children hwf.2 hfree (enclosing ++ [type]) .root
      (.object fields)).and (answers_of_map_fst (map_fst_weaveAllDeposits ..) hvalue)).bind ?_
    rintro ⟨value, inner⟩ ⟨hinner, hvalue⟩
    refine putElement_accounts (fun henclosing ↦ ?_) hvalue (FieldRules.expand_homes hexpand) hinner
    obtain ⟨found, rfl⟩ := locate_eq_some henclosing hlocate
    rfl
  | .literal path value isItem children, hwf, hfree, enclosing, base, document => by
    rw [weaveDeposits, Node.values]
    refine (putLiteral_accounts enclosing).bind fun ⟨place, written⟩ hown ↦ ?_
    exact AccountsFor.append hown
      (weaveAllDeposits_accounts context children hwf.2 hfree enclosing place written)
  | .transform _ _, _, hfree, _, _, _ => hfree.elim
  | .component name script, hwf, hfree, enclosing, base, document => by
    rw [weaveDeposits, Node.values]
    refine (Answers.note _).bind fun _ _ ↦ ?_
    exact weaveScriptDeposits_accounts context name script hwf hfree enclosing base document

theorem weaveAllDeposits_accounts (context : Context) : ∀ nodes : List Node,
    Node.AllWellFormed context.supplies nodes → Node.AllTransformFree context.supplies nodes →
      ∀ (enclosing : List TypeName) (base : FieldPath) (document : Json),
        AccountsFor enclosing (Node.allValues context nodes) document
          (weaveAllDeposits context enclosing base document nodes)
  | [], _, _, _, _, document => Answers.pure (Accounts.nil document)
  | node :: rest, hwf, hfree, enclosing, base, document => by
    rw [weaveAllDeposits, Node.allValues]
    refine (weaveDeposits_accounts context node hwf.1 hfree.1 enclosing base document).bind
      fun ⟨middle, front⟩ hfront ↦ ?_
    exact AccountsFor.append hfront
      (weaveAllDeposits_accounts context rest hwf.2 hfree.2 enclosing base middle)

theorem weaveScriptDeposits_accounts (context : Context) (owner : String) : ∀ script : Script,
    script.WellFormed context.supplies → script.TransformFree context.supplies →
      ∀ (enclosing : List TypeName) (base : FieldPath) (document : Json),
        AccountsFor enclosing (script.values context) document
          (weaveScriptDeposits context owner enclosing base document script)
  | .yield node, hwf, hfree, enclosing, base, document => by
    rw [weaveScriptDeposits, Script.values]
    exact weaveDeposits_accounts context node hwf hfree enclosing base document
  | .suspend, _, _, _, _, document => by
    rw [weaveScriptDeposits]
    exact (Answers.note _).bind fun _ _ ↦ Answers.pure (Accounts.nil document)
  | .read handle next, hwf, hfree, enclosing, base, document => by
    have hnext := weaveScriptDeposits_accounts context owner
      (next (context.supplies.value? handle)) hwf hfree enclosing base document
    rw [weaveScriptDeposits, Script.values]
    split
    · exact (Answers.note _).bind fun _ _ ↦ hnext
    · exact hnext
  | .require _ _ next, hwf, hfree, enclosing, base, document => by
    rw [weaveScriptDeposits, Script.values]
    refine (Answers.note _).bind fun _ _ ↦ ?_
    exact weaveScriptDeposits_accounts context owner next hwf hfree enclosing base document

end

/-! ## Whole documents -/

/-- The deposits make the documents and show the values in their order. -/
structure AllProduced (values : List Json) (recorded : List (Json × List Deposit)) : Prop where
  complete : (recorded.flatMap fun entry ↦ Deposit.shownIn entry.2).map Placement.value = values
  produced : ∀ entry ∈ recorded, Deposit.Produce entry.2 entry.1

theorem AllProduced.nil : AllProduced [] [] := ⟨rfl, nofun⟩

theorem AllProduced.single {values : List Json} {document : Json} {deposits : List Deposit}
    (hcomplete : (Deposit.shownIn deposits).map Placement.value = values)
    (hproduce : Deposit.Produce deposits document) :
    AllProduced values [(document, deposits)] where
  complete := by
    rw [List.flatMap_singleton]
    exact hcomplete
  produced := List.forall_mem_singleton.mpr hproduce

theorem AllProduced.append {values others : List Json} {front back : List (Json × List Deposit)}
    (hfront : AllProduced values front) (hback : AllProduced others back) :
    AllProduced (values ++ others) (front ++ back) where
  complete := by
    rw [List.flatMap_append, List.map_append]
    exact congrArg₂ _ hfront.complete hback.complete
  produced := List.forall_mem_append.mpr ⟨hfront.produced, hback.produced⟩

section Collecting

variable {context : Context}

/-- The document of one node is what its deposits make. -/
theorem documentDeposits_produces {node : Node} (hwf : node.WellFormed context.supplies)
    (hfree : node.TransformFree context.supplies) :
    Answers (AllProduced (node.values context))
      (do pure [← documentDeposits context node]) := by
  have hdocument : Answers (fun answer ↦ AllProduced (node.values context) [answer])
      (documentDeposits context node) := by
    refine (weaveDeposits_accounts context node hwf hfree [] .root .null).bind
      fun ⟨document, deposits⟩ haccounts ↦ ?_
    have hchronicle : Chronicle null deposits document := haccounts.chronicle
    cases document with
    | null => exact Answers.pure (AllProduced.single haccounts.complete (Or.inr ⟨hchronicle, rfl⟩))
    | _ => exact Answers.pure (AllProduced.single haccounts.complete (Or.inl hchronicle))
  exact hdocument.bind fun _ hanswer ↦ Answers.pure hanswer

mutual

/-- The documents of a node are what their deposits make. -/
theorem collectDeposits_produces : ∀ node : Node, node.WellFormed context.supplies →
    node.TransformFree context.supplies →
    Answers (AllProduced (node.values context)) (collectDeposits context node)
  | .fragment children, hwf, hfree => by
    rw [collectDeposits, Node.values]
    exact collectAllDeposits_produces children hwf hfree
  | .component name script, hwf, hfree => by
    rw [collectDeposits, Node.values]
    exact (Answers.note _).bind fun _ _ ↦ collectScriptDeposits_produces name script hwf hfree
  | .element type props tag children, hwf, hfree => by
    rw [collectDeposits]
    exact documentDeposits_produces hwf hfree
  | .literal path value isItem children, hwf, hfree => by
    rw [collectDeposits]
    exact documentDeposits_produces hwf hfree
  | .transform _ _, _, hfree => hfree.elim

theorem collectAllDeposits_produces : ∀ nodes : List Node,
    Node.AllWellFormed context.supplies nodes → Node.AllTransformFree context.supplies nodes →
    Answers (AllProduced (Node.allValues context nodes)) (collectAllDeposits context nodes)
  | [], _, _ => Answers.pure AllProduced.nil
  | node :: rest, hwf, hfree => by
    rw [collectAllDeposits, Node.allValues]
    refine (collectDeposits_produces node hwf.1 hfree.1).bind fun front hfront ↦ ?_
    refine (collectAllDeposits_produces rest hwf.2 hfree.2).bind fun back hback ↦ ?_
    exact Answers.pure (hfront.append hback)

theorem collectScriptDeposits_produces (owner : String) : ∀ script : Script,
    script.WellFormed context.supplies → script.TransformFree context.supplies →
    Answers (AllProduced (script.values context)) (collectScriptDeposits context owner script)
  | .yield node, hwf, hfree => by
    rw [collectScriptDeposits, Script.values]
    exact collectDeposits_produces node hwf hfree
  | .suspend, _, _ => by
    rw [collectScriptDeposits]
    exact (Answers.note _).bind fun _ _ ↦ Answers.pure AllProduced.nil
  | .read handle next, hwf, hfree => by
    have hnext := collectScriptDeposits_produces owner (next (context.supplies.value? handle)) hwf
      hfree
    rw [collectScriptDeposits, Script.values]
    split
    · exact (Answers.note _).bind fun _ _ ↦ hnext
    · exact hnext
  | .require _ _ next, hwf, hfree => by
    rw [collectScriptDeposits, Script.values]
    exact (Answers.note _).bind fun _ _ ↦ collectScriptDeposits_produces owner next hwf hfree

end

/-- A pass that finishes has what goes into each of its documents. -/
theorem exec_collectDeposits {tree : Node} {documents : List Json} {log : PassLog}
    (h : pass context tree = (.ok documents, log)) :
    ∃ recorded, exec (collectDeposits context tree) PassLog.empty = (.ok recorded, log) ∧
      recorded.map Prod.fst = documents := by
  have hexec : exec (collect context tree) PassLog.empty = (.ok documents, log) := h
  rw [← map_fst_collectDeposits, map_eq_pure_bind, exec_bind_eq_ok_iff] at hexec
  obtain ⟨recorded, middle, hrecorded, heq⟩ := hexec
  cases heq
  exact ⟨recorded, hrecorded, rfl⟩

end Collecting

/-- Outside every element nothing fails where an element's value clashes with what the document has
at a place: the value replaces it there. Nothing else is lost. In a tree without transforms that
composes, every value of a property or a literal goes to a place of some document. It is there in
the end, a scalar as it is and any other value extended at most, unless a later element without an
enclosing one was laid over the document and clashed at that place, above it or inside it. A null
for a whole document counts as nothing. -/
theorem outermost_replaces_only_clashes (context : Context) :
    (∀ (base path : FieldPath) (document value old new : Json) (type : TypeName)
      (props fields : Members) (tag : Option String) (children : List Node) (log after : PassLog),
      (context.schema.rulesOf type).expand context.marker props = .ok fields →
      exec (weaveAll context [type] .root (.object fields) children) log = (.ok value, after) →
      value.WellFormed → document.get? (base.join path) = some old → value.get? path = some new →
      old.Clash new →
      ∃ result, exec (weave context [] base document (.element type props tag children)) log =
          (.ok result, after) ∧
        result.get? (base.join path) = some new) ∧
    ∀ (tree : Node) (documents : List Json) (log : PassLog), tree.WellFormed context.supplies →
      tree.TransformFree context.supplies → pass context tree = (.ok documents, log) →
      ∃ recorded, exec (collectDeposits context tree) PassLog.empty = (.ok recorded, log) ∧
        recorded.map Prod.fst = documents ∧
        (recorded.flatMap fun entry ↦ Deposit.shownIn entry.2).map Placement.value =
          tree.values context ∧
        ∀ entry ∈ recorded, Deposit.Produce entry.2 entry.1 ∧ Deposit.KeptIn entry.2 entry.1 ∧
          ∀ placement : Placement, placement.StandsIn entry.1 → placement.value.IsScalar →
            entry.1.get? placement.path = some placement.value := by
  constructor
  · intro base path document value old new type props fields tag children log after hexpand hvalue
      hwf hold hnew hclash
    obtain ⟨result, hmerge, hresult⟩ := replaced_of_clash hwf hold hnew hclash
    refine ⟨result, ?_, hresult⟩
    have hlocate : exec (settleWith (locate context.schema [] type tag)) log =
        (.ok none, log) := rfl
    have hfields : exec (settleWith ((context.schema.rulesOf type).expand context.marker props))
        log = (.ok fields, log) := by
      rw [exec_settleWith, hexpand]
    rw [weave, exec_bind_of_ok hlocate, exec_bind_of_ok hfields, List.nil_append,
      exec_bind_of_ok hvalue, putElement, hmerge]
    rfl
  · intro tree documents log hwf hfree hpass
    obtain ⟨recorded, hexec, hdocuments⟩ := exec_collectDeposits hpass
    obtain ⟨hcomplete, hproduced⟩ := collectDeposits_produces tree hwf hfree _ _ _ hexec
    refine ⟨recorded, hexec, hdocuments, hcomplete, fun entry hmem ↦ ?_⟩
    have hproduce := hproduced entry hmem
    exact ⟨hproduce, hproduce.keptIn, fun _ hstands hscalar ↦ hstands.get?_of_isScalar hscalar⟩

/-- Two elements at one place of a document, where both have a property of the same name. -/
theorem outermost_replaces_only_clashes_labels :
    let context : Context := ⟨⟨⟨[], []⟩, [], default⟩, "@", []⟩
    let one : Json := .number (.integer 1)
    let two : Json := .number (.integer 2)
    let base : FieldPath := .ofKeys ["labels"]
    let first : Node := .element ⟨"First"⟩ [("app", one), ("tier", one)] none []
    let second : Node := .element ⟨"Second"⟩ [("app", two)] none []
    let tree : Node := .literal base none false [first, second]
    let before : Json := .object [("labels", .object [("app", one), ("tier", one)])]
    let document : Json := .object [("labels", .object [("app", two), ("tier", one)])]
    tree.values context = [one, one, two] ∧
      (∃ result, exec (weave context [] base before second) PassLog.empty =
          (.ok result, PassLog.empty) ∧
        result.get? (base.join (.ofKeys ["app"])) = some two) ∧
      ∃ recorded, exec (collectDeposits context tree) PassLog.empty =
          (.ok recorded, PassLog.empty) ∧
        recorded.map Prod.fst = [document] ∧
        (recorded.flatMap fun entry ↦ Deposit.shownIn entry.2).map Placement.path =
          [base.key "app", base.key "tier", base.key "app"] ∧
        ∀ entry ∈ recorded, Deposit.KeptIn entry.2 entry.1 := by
  intro context one two base first second tree before document
  obtain ⟨hreplaces, hkeeps⟩ := outermost_replaces_only_clashes context
  have hvalue : Json.WellFormed (.object [("app", two)]) :=
    ⟨List.nodup_singleton _, trivial, trivial⟩
  have hclash : one.Clash two := ⟨by simp [one, two], fun h ↦ by cases h.1⟩
  have hwf : tree.WellFormed context.supplies := by
    simp [tree, first, second, one, two, Node.WellFormed, Node.AllWellFormed, Json.WellFormed,
      MembersWellFormed]
  have hfree : tree.TransformFree context.supplies := ⟨trivial, trivial, trivial⟩
  obtain ⟨recorded, hexec, hdocuments, -, hkept⟩ :=
    hkeeps tree [document] PassLog.empty hwf hfree rfl
  cases hexec
  refine ⟨rfl, ?_, _, rfl, hdocuments, rfl, fun entry hmem ↦ (hkept entry hmem).2.1⟩
  exact hreplaces base (.ofKeys ["app"]) before (.object [("app", two)]) one two ⟨"Second"⟩
    [("app", two)] [("app", two)] none [] PassLog.empty PassLog.empty rfl rfl hvalue rfl rfl hclash

/-- The property of the first of two elements at one place is overwritten without a failure, and its
value is nowhere in the document. Two more values are not in a document as they were written: null
for the whole of it, and an array that another literal adds an item to. -/
theorem composed_without_written_values :
    let context : Context := ⟨⟨⟨[], []⟩, [], default⟩, "@", []⟩
    let one : Json := .number (.integer 1)
    let two : Json := .number (.integer 2)
    let labels : FieldPath := .ofKeys ["labels"]
    let first : Node := .element ⟨"First"⟩ [("app", one)] none []
    let second : Node := .element ⟨"Second"⟩ [("app", two)] none []
    let before : Json := .object [("labels", .object [("app", one)])]
    let document : Json := .object [("labels", .object [("app", two)])]
    let items : Node := .literal .root none false [.literal labels (some (.array [one])) false [],
      .literal labels (some two) true []]
    let extended : Json := .object [("labels", .array [one, two])]
    before.get? (labels.key "app") = some one ∧ one ≠ two ∧
      exec (weave context [] labels before second) PassLog.empty =
        (.ok document, PassLog.empty) ∧
      compose context (.literal labels none false [first, second]) = .ok [document] ∧
      (∀ path, document.get? path ≠ some one) ∧
      compose context (.literal .root (some .null) false []) = .ok [.object []] ∧
      (∀ path, (Json.object []).get? path ≠ some .null) ∧
      compose context items = .ok [extended] ∧
      ∀ path, extended.get? path ≠ some (.array [one]) := by
  intro context one two labels first second before document items extended
  have hinside {value found : Json} {path : FieldPath} (hread : value.get? path = some found) :
      found ∈ gather (fun inner ↦ {inner}) value :=
    Multiset.singleton_le.mp (own_le_gather _ hread)
  refine ⟨rfl, by simp [one, two], rfl, rfl, fun path hread ↦ ?_, rfl, fun path hread ↦ ?_, rfl,
    fun path hread ↦ ?_⟩
  · have hmem := hinside hread
    simp [document, one, two, gather, gatherMembers] at hmem
  · have hmem := hinside hread
    simp [gather, gatherMembers] at hmem
  · have hmem := hinside hread
    simp [extended, one, two, gather, gatherMembers, gatherItems] at hmem

end Compose
end ManifestTree
