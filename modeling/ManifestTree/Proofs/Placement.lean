import ManifestTree.Proofs.Extension
import ManifestTree.Proofs.Weaving

/-!
# Where a pass puts values

The twin of weaving here also answers where each value went: an element's value, a literal's own
value, and inside an element the places relative to its own one. Inside an enclosing element every
such place was vacant before, no two of them are the same, and each still leads to its value in the
end, extended at most. Transforms rewrite what stands at their base; nothing is claimed about a tree
with one, nor about elements outside every element, which are laid over what is there.
-/

namespace ManifestTree

theorem FieldPath.join_left_injective (base : FieldPath) : Function.Injective base.join := by
  intro path other h
  have hsteps : path.steps = other.steps :=
    List.append_cancel_left (congrArg FieldPath.steps h)
  cases path
  cases other
  exact congrArg FieldPath.mk hsteps

theorem FieldPath.join_root (base : FieldPath) : base.join FieldPath.root = base :=
  congrArg FieldPath.mk (List.append_nil base.steps)

/-- A value and the place where it was put. -/
structure Placement where
  path : FieldPath
  value : Json
  deriving Repr, Inhabited

namespace Placement

/-- The placement seen from outside, where its document stands at a base. -/
def under (base : FieldPath) (placement : Placement) : Placement :=
  ⟨base.join placement.path, placement.value⟩

/-- The document has the value at the place, possibly extended. -/
def FoundIn (placement : Placement) (document : Json) : Prop :=
  ∃ found, document.get? placement.path = some found ∧ placement.value.ExtendedBy found

def VacantIn (placement : Placement) (document : Json) : Prop :=
  document.get? placement.path = none

theorem foundIn_of_get? {path : FieldPath} {value document : Json}
    (h : document.get? path = some value) : FoundIn ⟨path, value⟩ document :=
  ⟨value, h, Json.ExtendedBy.refl value⟩

theorem FoundIn.of_extendedBy {placement : Placement} {document later : Json}
    (h : placement.FoundIn document) (hlater : document.ExtendedBy later) :
    placement.FoundIn later := by
  obtain ⟨found, hfound, hvalue⟩ := h
  obtain ⟨last, hlast, hfound'⟩ := hlater.get? hfound
  exact ⟨last, hlast, hvalue.trans hfound'⟩

theorem FoundIn.under {placement : Placement} {document inner : Json} {base : FieldPath}
    (h : placement.FoundIn inner) (hbase : document.get? base = some inner) :
    (placement.under base).FoundIn document := by
  obtain ⟨found, hfound, hvalue⟩ := h
  refine ⟨found, ?_, hvalue⟩
  rw [Placement.under, Json.get?_join, hbase]
  exact hfound

theorem VacantIn.under {document : Json} {base : FieldPath} (hbase : document.get? base = none)
    (placement : Placement) : (placement.under base).VacantIn document := by
  rw [VacantIn, Placement.under, Json.get?_join, hbase]
  rfl

/-- What is vacant in the end was vacant before. -/
theorem VacantIn.of_extendedBy {placement : Placement} {document later : Json}
    (h : placement.VacantIn later) (hlater : document.ExtendedBy later) :
    placement.VacantIn document := by
  cases hget : document.get? placement.path with
  | none => exact hget
  | some value =>
    obtain ⟨found, hfound, -⟩ := hlater.get? hget
    exact nomatch h.symm.trans hfound

/-! ## Records -/

/-- A document that grew has every value at a place where nothing stood before, each at a place of
its own. -/
structure Recorded (placed : List Placement) (document result : Json) : Prop where
  grows : document.ExtendedBy result
  vacant : ∀ placement ∈ placed, placement.VacantIn document
  found : ∀ placement ∈ placed, placement.FoundIn result
  distinct : (placed.map Placement.path).Nodup

namespace Recorded

theorem nil (document : Json) : Recorded [] document document where
  grows := Json.ExtendedBy.refl document
  vacant := by simp
  found := by simp
  distinct := List.nodup_nil

theorem append {front back : List Placement} {document middle result : Json}
    (hfront : Recorded front document middle) (hback : Recorded back middle result) :
    Recorded (front ++ back) document result where
  grows := hfront.grows.trans hback.grows
  vacant := by
    intro placement hmem
    rcases List.mem_append.mp hmem with hmem | hmem
    · exact hfront.vacant placement hmem
    · exact (hback.vacant placement hmem).of_extendedBy hfront.grows
  found := by
    intro placement hmem
    rcases List.mem_append.mp hmem with hmem | hmem
    · exact (hfront.found placement hmem).of_extendedBy hback.grows
    · exact hback.found placement hmem
  distinct := by
    rw [List.map_append, List.nodup_append]
    refine ⟨hfront.distinct, hback.distinct, ?_⟩
    rintro _ hleft _ hright rfl
    obtain ⟨first, hfirst, hpath⟩ := List.mem_map.mp hleft
    obtain ⟨second, hsecond, heq⟩ := List.mem_map.mp hright
    obtain ⟨value, hvalue, -⟩ := hfront.found first hfirst
    have hvacant : middle.get? second.path = none := hback.vacant second hsecond
    rw [heq, ← hpath, hvalue] at hvacant
    exact nomatch hvacant

/-- A value put at a vacant place, together with what was put inside it before. -/
theorem inside {placed : List Placement} {document result start value : Json} {place : FieldPath}
    (hinner : Recorded placed start value) (hgrows : document.ExtendedBy result)
    (hvacant : document.get? place = none) (hfound : result.get? place = some value) :
    Recorded (⟨place, value⟩ :: placed.map (Placement.under place)) document result where
  grows := hgrows
  vacant := by
    intro placement hmem
    rcases List.mem_cons.mp hmem with rfl | hmem
    · exact hvacant
    · obtain ⟨inner, -, rfl⟩ := List.mem_map.mp hmem
      exact VacantIn.under hvacant inner
  found := by
    intro placement hmem
    rcases List.mem_cons.mp hmem with rfl | hmem
    · exact foundIn_of_get? hfound
    · obtain ⟨inner, hinside, rfl⟩ := List.mem_map.mp hmem
      exact (hinner.found inner hinside).under hfound
  distinct := by
    have hpaths : (placed.map (Placement.under place)).map Placement.path =
        (placed.map Placement.path).map place.join := by
      simp [Placement.under]
    rw [List.map_cons, hpaths, List.nodup_cons]
    refine ⟨?_, hinner.distinct.map (FieldPath.join_left_injective place)⟩
    intro hmem
    obtain ⟨path, hpath, heq⟩ := List.mem_map.mp hmem
    obtain ⟨inner, hinside, rfl⟩ := List.mem_map.mp hpath
    have hroot : inner.path = FieldPath.root :=
      FieldPath.join_left_injective place (heq.trans (FieldPath.join_root place).symm)
    have hstart : start.get? inner.path = none := hinner.vacant inner hinside
    rw [hroot] at hstart
    exact nomatch hstart

theorem single {document result value : Json} {place : FieldPath}
    (hgrows : document.ExtendedBy result) (hvacant : document.get? place = none)
    (hfound : result.get? place = some value) :
    Recorded [⟨place, value⟩] document result :=
  inside (nil value) hgrows hvacant hfound

/-- A document that is not null stays so. -/
theorem ne_null {placed : List Placement} {document result : Json}
    (h : Recorded placed document result) (hdocument : document ≠ .null) : result ≠ .null :=
  h.grows.ne_null hdocument

end Recorded
end Placement

/-! ## The pass that records -/

namespace Compose

/-- `putElement` with the place of the element's value. -/
def putElementTraced (relation : Option Relation) (base : FieldPath) (document value : Json) :
    Weaving (FieldPath × Json) :=
  match relation with
  | none => do pure (base, (← written (document.mergeAt base value)).2)
  | some relation =>
    let target := base.join relation.path
    if relation.isMany then do
      let (position, document) ← written (document.append target value)
      pure (target.index position, document)
    else do pure (target, (← written (document.set target value)).2)

/-- The place of a literal's own value, when it has one. -/
def ownPlacement (place : FieldPath) (value : Option Json) (isItem : Bool) : List Placement :=
  match value with
  | some value => [⟨place, value⟩]
  | none => if isItem then [⟨place, .object []⟩] else []

mutual

/-- `weave` with the places of the values, the enclosing ones first. -/
def weaveTraced (context : Context) (enclosing : List TypeName) (base : FieldPath)
    (document : Json) : Node → Weaving (Json × List Placement)
  | .fragment children => weaveAllTraced context enclosing base document children
  | .element type props tag children => do
    let relation ← settleWith (locate context.schema enclosing type tag)
    let fields ← settleWith ((context.schema.rulesOf type).expand context.marker props)
    let (value, placed) ←
      weaveAllTraced context (enclosing ++ [type]) FieldPath.root (.object fields) children
    let (place, document) ← putElementTraced relation base document value
    pure (document, ⟨place, value⟩ :: placed.map (Placement.under place))
  | .literal path value isItem children => do
    let (place, document) ← putLiteral base path value isItem document
    let (document, placed) ← weaveAllTraced context enclosing place document children
    pure (document, ownPlacement place value isItem ++ placed)
  | .transform rewrite children => do
    pure (← weave context enclosing base document (.transform rewrite children), [])
  | .component name script => do
    note fun log ↦ log.addRendered name
    weaveScriptTraced context name enclosing base document script

def weaveAllTraced (context : Context) (enclosing : List TypeName) (base : FieldPath)
    (document : Json) : List Node → Weaving (Json × List Placement)
  | [] => pure (document, [])
  | node :: rest => do
    let (document, front) ← weaveTraced context enclosing base document node
    let (document, back) ← weaveAllTraced context enclosing base document rest
    pure (document, front ++ back)

def weaveScriptTraced (context : Context) (owner : String) (enclosing : List TypeName)
    (base : FieldPath) (document : Json) : Script → Weaving (Json × List Placement)
  | .yield node => weaveTraced context enclosing base document node
  | .suspend => do
    note PassLog.addSuspended
    pure (document, [])
  | .read handle next => do
    let value := context.supplies.value? handle
    if value.isNone then note fun log ↦ log.addPending handle
    weaveScriptTraced context owner enclosing base document (next value)
  | .require message check next => do
    note fun log ↦ log.addRequirement ⟨owner, message, check⟩
    weaveScriptTraced context owner enclosing base document next

end

theorem map_snd_putElementTraced (relation : Option Relation) (base : FieldPath)
    (document value : Json) :
    Prod.snd <$> putElementTraced relation base document value =
      putElement relation base document value := by
  cases relation with
  | none => simp [putElementTraced, putElement]
  | some relation =>
    cases hmany : relation.isMany <;> simp [putElementTraced, putElement, hmany]

mutual

theorem map_fst_weaveTraced (context : Context) : ∀ (node : Node) (enclosing : List TypeName)
    (base : FieldPath) (document : Json),
    Prod.fst <$> weaveTraced context enclosing base document node =
      weave context enclosing base document node
  | .fragment children, enclosing, base, document => by
    rw [weaveTraced, weave]
    exact map_fst_weaveAllTraced context children enclosing base document
  | .element type props tag children, enclosing, base, document => by
    rw [weaveTraced, weave]
    simp only [map_bind, map_pure]
    refine bind_congr fun relation ↦ bind_congr fun fields ↦ ?_
    rw [← map_fst_weaveAllTraced context children, bind_map_left]
    refine bind_congr fun inner ↦ ?_
    rw [← map_snd_putElementTraced, map_eq_pure_bind]
  | .literal path value isItem children, enclosing, base, document => by
    rw [weaveTraced, weave]
    simp only [map_bind, map_pure]
    refine bind_congr fun own ↦ ?_
    rw [← map_fst_weaveAllTraced context children, map_eq_pure_bind]
  | .transform rewrite children, enclosing, base, document => by
    rw [weaveTraced, map_bind]
    simp
  | .component name script, enclosing, base, document => by
    rw [weaveTraced, weave, map_bind]
    exact bind_congr fun _ ↦ map_fst_weaveScriptTraced context name script enclosing base document

theorem map_fst_weaveAllTraced (context : Context) : ∀ (nodes : List Node)
    (enclosing : List TypeName) (base : FieldPath) (document : Json),
    Prod.fst <$> weaveAllTraced context enclosing base document nodes =
      weaveAll context enclosing base document nodes
  | [], enclosing, base, document => by
    rw [weaveAllTraced, weaveAll, map_pure]
  | node :: rest, enclosing, base, document => by
    rw [weaveAllTraced, weaveAll, ← map_fst_weaveTraced context node, bind_map_left]
    simp only [map_bind, map_pure]
    refine bind_congr fun front ↦ ?_
    rw [← map_fst_weaveAllTraced context rest, map_eq_pure_bind]

theorem map_fst_weaveScriptTraced (context : Context) (owner : String) : ∀ (script : Script)
    (enclosing : List TypeName) (base : FieldPath) (document : Json),
    Prod.fst <$> weaveScriptTraced context owner enclosing base document script =
      weaveScript context owner enclosing base document script
  | .yield node, enclosing, base, document => by
    rw [weaveScriptTraced, weaveScript]
    exact map_fst_weaveTraced context node enclosing base document
  | .suspend, enclosing, base, document => by
    rw [weaveScriptTraced, weaveScript, map_bind]
    rfl
  | .read handle next, enclosing, base, document => by
    rw [weaveScriptTraced, weaveScript]
    have hnext := map_fst_weaveScriptTraced context owner
      (next (context.supplies.value? handle)) enclosing base document
    split
    · rw [map_bind]
      exact bind_congr fun _ ↦ hnext
    · exact hnext
  | .require message check next, enclosing, base, document => by
    rw [weaveScriptTraced, weaveScript, map_bind]
    exact bind_congr fun _ ↦ map_fst_weaveScriptTraced context owner next enclosing base document

end

/-- A run of a part is a run of the part that records, with the same answer and log. -/
theorem exec_of_map_fst {α β : Type} {part : Weaving α} {traced : Weaving (α × β)}
    (hpart : Prod.fst <$> traced = part) {log after : PassLog} {answer : α}
    (h : Weaving.exec part log = (.ok answer, after)) :
    ∃ record, Weaving.exec traced log = (.ok (answer, record), after) := by
  rw [← hpart, map_eq_pure_bind, Weaving.exec_bind_eq_ok_iff] at h
  obtain ⟨⟨found, record⟩, middle, hrun, heq⟩ := h
  cases heq
  exact ⟨record, hrun⟩

theorem exec_weaveTraced {context : Context} {enclosing : List TypeName} {base : FieldPath}
    {document result : Json} {node : Node} {log after : PassLog}
    (h : Weaving.exec (weave context enclosing base document node) log = (.ok result, after)) :
    ∃ placed, Weaving.exec (weaveTraced context enclosing base document node) log =
      (.ok (result, placed), after) :=
  exec_of_map_fst (map_fst_weaveTraced context node enclosing base document) h

theorem exec_weaveAllTraced {context : Context} {enclosing : List TypeName} {base : FieldPath}
    {document result : Json} {nodes : List Node} {log after : PassLog}
    (h : Weaving.exec (weaveAll context enclosing base document nodes) log = (.ok result, after)) :
    ∃ placed, Weaving.exec (weaveAllTraced context enclosing base document nodes) log =
      (.ok (result, placed), after) :=
  exec_of_map_fst (map_fst_weaveAllTraced context nodes enclosing base document) h

theorem exec_weaveScriptTraced {context : Context} {owner : String} {enclosing : List TypeName}
    {base : FieldPath} {document result : Json} {script : Script} {log after : PassLog}
    (h : Weaving.exec (weaveScript context owner enclosing base document script) log =
      (.ok result, after)) :
    ∃ placed, Weaving.exec (weaveScriptTraced context owner enclosing base document script) log =
      (.ok (result, placed), after) :=
  exec_of_map_fst (map_fst_weaveScriptTraced context owner script enclosing base document) h

/-! ## Trees without transforms -/

end Compose

mutual

/-- The tree has no transform, in the components as they render with these supplies. -/
def Node.TransformFree (supplies : Supplies) : Node → Prop
  | .fragment children => Node.AllTransformFree supplies children
  | .element _ _ _ children => Node.AllTransformFree supplies children
  | .literal _ _ _ children => Node.AllTransformFree supplies children
  | .transform _ _ => False
  | .component _ script => script.TransformFree supplies

def Node.AllTransformFree (supplies : Supplies) : List Node → Prop
  | [] => True
  | node :: rest => node.TransformFree supplies ∧ Node.AllTransformFree supplies rest

/-- The tree that the script yields, if any, has no transform. -/
def Script.TransformFree (supplies : Supplies) : Script → Prop
  | .yield node => node.TransformFree supplies
  | .suspend => True
  | .read handle next => (next (supplies.value? handle)).TransformFree supplies
  | .require _ _ next => next.TransformFree supplies

end

namespace Compose

open Weaving Placement

/-! ## The writers -/

theorem exec_written_eq_ok {α : Type} {outcome : Except Failure α × Json} {log after : PassLog}
    {answer : α} {document : Json}
    (h : exec (written outcome) log = (.ok (answer, document), after)) :
    outcome = (.ok answer, document) ∧ after = log := by
  rw [exec_written] at h
  rcases outcome with ⟨failure | found, left⟩ <;> cases h
  exact ⟨rfl, rfl⟩

/-- Inside an element, an element's value goes to a vacant place. -/
theorem putElementTraced_places {relation : Relation} {base place : FieldPath}
    {document value result : Json} {log after : PassLog} (hdocument : document ≠ .null)
    (h : exec (putElementTraced (some relation) base document value) log =
      (.ok (place, result), after)) :
    document.ExtendedBy result ∧ document.get? place = none ∧ result.get? place = some value := by
  unfold putElementTraced at h
  cases hmany : relation.isMany with
  | true =>
    simp only [hmany, if_true] at h
    obtain ⟨⟨position, left⟩, _, hwritten, heq⟩ := exec_bind_eq_ok_iff.mp h
    obtain ⟨happend, rfl⟩ := exec_written_eq_ok hwritten
    cases heq
    exact Json.append_extendedBy hdocument happend
  | false =>
    simp only [hmany] at h
    obtain ⟨⟨_, left⟩, _, hwritten, heq⟩ := exec_bind_eq_ok_iff.mp h
    obtain ⟨hset, rfl⟩ := exec_written_eq_ok hwritten
    cases heq
    exact Json.set_extendedBy hdocument hset

/-- A literal's own value goes to a vacant place. -/
theorem putLiteral_recorded {base path place : FieldPath} {value : Option Json} {isItem : Bool}
    {document result : Json} {log after : PassLog} (hdocument : document ≠ .null)
    (h : exec (putLiteral base path value isItem document) log = (.ok (place, result), after)) :
    Recorded (ownPlacement place value isItem) document result := by
  unfold putLiteral at h
  cases isItem with
  | true =>
    simp only [if_true] at h
    obtain ⟨⟨position, left⟩, _, hwritten, heq⟩ := exec_bind_eq_ok_iff.mp h
    obtain ⟨happend, rfl⟩ := exec_written_eq_ok hwritten
    cases heq
    obtain ⟨hgrows, hvacant, hfound⟩ := Json.append_extendedBy hdocument happend
    cases value <;> exact Recorded.single hgrows hvacant hfound
  | false =>
    cases value with
    | none =>
      cases h
      exact Recorded.nil document
    | some value =>
      obtain ⟨⟨_, left⟩, _, hwritten, heq⟩ := exec_bind_eq_ok_iff.mp h
      obtain ⟨hset, rfl⟩ := exec_written_eq_ok hwritten
      cases heq
      obtain ⟨hgrows, hvacant, hfound⟩ := Json.set_extendedBy hdocument hset
      exact Recorded.single hgrows hvacant hfound

/-- Inside an element, a type is always placed by a relation. -/
theorem locate_eq_some {schema : Schema} {enclosing : List TypeName} {type : TypeName}
    {tag : Option String} {relation : Option Relation} (henclosing : enclosing ≠ [])
    (h : locate schema enclosing type tag = .ok relation) : ∃ found, relation = some found := by
  unfold locate at h
  simp only [List.getLast?_eq_some_getLast henclosing] at h
  cases hresolve : schema.relations.resolve (enclosing.getLast henclosing) type tag with
  | error failure =>
    rw [hresolve] at h
    cases h
  | ok found =>
    rw [hresolve] at h
    cases h
    exact ⟨found, rfl⟩

/-! ## What a run records -/

/-- Every successful run of the part records the values that it put into the document. -/
def Records (document : Json) (part : Weaving (Json × List Placement)) : Prop :=
  ∀ log result placed after, exec part log = (.ok (result, placed), after) →
    Recorded placed document result

theorem records_pure (document : Json) : Records document (pure (document, [])) := by
  intro log result placed after h
  cases h
  exact Recorded.nil document

/-- What comes before a part does not matter to its records. -/
theorem records_bind {α : Type} {document : Json} {part : Weaving α}
    {next : α → Weaving (Json × List Placement)}
    (h : ∀ log answer after, exec part log = (.ok answer, after) → Records document (next answer)) :
    Records document (part >>= next) := by
  intro log result placed after hrun
  obtain ⟨answer, middle, hpart, hnext⟩ := exec_bind_eq_ok_iff.mp hrun
  exact h log answer middle hpart middle result placed after hnext

/-- Two parts, the second one working on what the first one left. -/
theorem records_append {document middle : Json} {front : List Placement}
    {part : Weaving (Json × List Placement)} (hfront : Recorded front document middle)
    (hback : Records middle part) :
    Records document (part >>= fun last ↦ pure (last.1, front ++ last.2)) := by
  intro log result placed after hrun
  obtain ⟨⟨left, back⟩, after', hpart, heq⟩ := exec_bind_eq_ok_iff.mp hrun
  cases heq
  exact hfront.append (hback _ _ _ _ hpart)

mutual

theorem weaveTraced_records (context : Context) : ∀ node : Node,
    node.TransformFree context.supplies →
      ∀ (enclosing : List TypeName) (base : FieldPath) (document : Json),
        enclosing ≠ [] → document ≠ .null →
        Records document (weaveTraced context enclosing base document node)
  | .fragment children, hfree, enclosing, base, document, henclosing, hdocument => by
    rw [weaveTraced]
    exact weaveAllTraced_records context children hfree enclosing base document henclosing
      hdocument
  | .element type props tag children, hfree, enclosing, base, document, henclosing,
      hdocument => by
    rw [weaveTraced]
    refine records_bind fun log relation after hlocate ↦ ?_
    refine records_bind fun _ fields _ _ ↦ records_bind fun _ inner _ hchildren ↦ ?_
    rw [exec_settleWith, Prod.mk.injEq] at hlocate
    obtain ⟨found, rfl⟩ := locate_eq_some henclosing hlocate.1
    have hinner : Recorded inner.2 (.object fields) inner.1 :=
      weaveAllTraced_records context children hfree (enclosing ++ [type]) FieldPath.root
        (.object fields) (by simp) (by simp) _ _ _ _ hchildren
    intro log result placed after hrun
    obtain ⟨⟨place, left⟩, _, hput, heq⟩ := exec_bind_eq_ok_iff.mp hrun
    cases heq
    obtain ⟨hgrows, hvacant, hfound⟩ := putElementTraced_places hdocument hput
    exact hinner.inside hgrows hvacant hfound
  | .literal path value isItem children, hfree, enclosing, base, document, henclosing,
      hdocument => by
    rw [weaveTraced]
    refine records_bind fun _ own _ hput ↦ ?_
    have hown := putLiteral_recorded hdocument hput
    exact records_append hown (weaveAllTraced_records context children hfree enclosing own.1 own.2
      henclosing (hown.ne_null hdocument))
  | .transform _ _, hfree, _, _, _, _, _ => hfree.elim
  | .component name script, hfree, enclosing, base, document, henclosing, hdocument => by
    rw [weaveTraced]
    exact records_bind fun _ _ _ _ ↦
      weaveScriptTraced_records context name script hfree enclosing base document henclosing
        hdocument

theorem weaveAllTraced_records (context : Context) : ∀ nodes : List Node,
    Node.AllTransformFree context.supplies nodes →
      ∀ (enclosing : List TypeName) (base : FieldPath) (document : Json),
        enclosing ≠ [] → document ≠ .null →
        Records document (weaveAllTraced context enclosing base document nodes)
  | [], _, _, _, document, _, _ => records_pure document
  | node :: rest, hfree, enclosing, base, document, henclosing, hdocument => by
    rw [weaveAllTraced]
    refine records_bind fun _ front _ hnode ↦ ?_
    have hfront := weaveTraced_records context node hfree.1 enclosing base document henclosing
      hdocument _ _ _ _ hnode
    exact records_append hfront (weaveAllTraced_records context rest hfree.2 enclosing base front.1
      henclosing (hfront.ne_null hdocument))

theorem weaveScriptTraced_records (context : Context) (owner : String) : ∀ script : Script,
    script.TransformFree context.supplies →
      ∀ (enclosing : List TypeName) (base : FieldPath) (document : Json),
        enclosing ≠ [] → document ≠ .null →
        Records document (weaveScriptTraced context owner enclosing base document script)
  | .yield node, hfree, enclosing, base, document, henclosing, hdocument => by
    rw [weaveScriptTraced]
    exact weaveTraced_records context node hfree enclosing base document henclosing hdocument
  | .suspend, _, _, _, document, _, _ => by
    rw [weaveScriptTraced]
    exact records_bind fun _ _ _ _ ↦ records_pure document
  | .read handle next, hfree, enclosing, base, document, henclosing, hdocument => by
    have hnext := weaveScriptTraced_records context owner (next (context.supplies.value? handle))
      hfree enclosing base document henclosing hdocument
    rw [weaveScriptTraced]
    split
    · exact records_bind fun _ _ _ _ ↦ hnext
    · exact hnext
  | .require _ _ next, hfree, enclosing, base, document, henclosing, hdocument => by
    rw [weaveScriptTraced]
    exact records_bind fun _ _ _ _ ↦
      weaveScriptTraced_records context owner next hfree enclosing base document henclosing
        hdocument

end

/-- Inside an element composition only adds. The document grows, so that a scalar or null that was
readable at a path is still there; and every value that the nodes wrote went to a place of its own
where nothing stood, and is there in the end. -/
theorem weave_onlyAdds {context : Context} {enclosing : List TypeName} {base : FieldPath}
    {document result : Json} {node : Node} {log after : PassLog} (henclosing : enclosing ≠ [])
    (hdocument : document ≠ .null) (hfree : node.TransformFree context.supplies)
    (hrun : exec (weave context enclosing base document node) log = (.ok result, after)) :
    document.ExtendedBy result ∧
      (∀ path value, value.IsScalar → document.get? path = some value →
        result.get? path = some value) ∧
      ∃ placed, exec (weaveTraced context enclosing base document node) log =
          (.ok (result, placed), after) ∧
        Recorded placed document result := by
  obtain ⟨placed, htraced⟩ := exec_weaveTraced hrun
  have hrecorded := weaveTraced_records context node hfree enclosing base document henclosing
    hdocument log result placed after htraced
  refine ⟨hrecorded.grows, fun path value hscalar hget ↦ ?_, placed, htraced, hrecorded⟩
  obtain ⟨found, hfound, hvalue⟩ := hrecorded.grows.get? hget
  rw [hfound, hvalue.eq_of_isScalar hscalar]

/-- A child with a literal inside and an item behind it join the items of an array. -/
theorem weave_onlyAdds_two_containers :
    let pod : TypeName := ⟨"Pod"⟩
    let containers : FieldPath := .ofKeys ["containers"]
    let relation : Relation := ⟨⟨"Container"⟩, pod, containers, true, none⟩
    let relations : Relations := ⟨[(pod, [relation])], [((pod, relation.child), .only relation)]⟩
    let context : Context := ⟨⟨relations, [], default⟩, "@", []⟩
    let image : Node := .literal (.ofKeys ["image"]) (some (.string "nginx")) false []
    let tree : Node := .fragment [.element relation.child [("name", .string "web")] none [image],
      .component "sidecar" (.yield (.literal containers none true []))]
    let document : Json := .object [("kind", .null), ("containers", .array [.bool true])]
    let result : Json := .object [("kind", .null), ("containers", .array [.bool true,
      .object [("name", .string "web"), ("image", .string "nginx")], .object []])]
    let log : PassLog := ⟨["sidecar"], [], [], 0⟩
    exec (weave context [pod] .root document tree) PassLog.empty = (.ok result, log) ∧
      document.ExtendedBy result ∧
      ∃ placed, placed.map Placement.path = [containers.index 1, (containers.index 1).key "image",
          containers.index 2] ∧
        Recorded placed document result := by
  intro pod containers relation relations context image tree document result log
  have hrun : exec (weave context [pod] .root document tree) PassLog.empty = (.ok result, log) :=
    rfl
  have hfree : tree.TransformFree context.supplies :=
    ⟨⟨trivial, trivial⟩, trivial, trivial⟩
  obtain ⟨hgrows, -, placed, htraced, hrecorded⟩ :=
    weave_onlyAdds (by simp) (by simp [document]) hfree hrun
  cases htraced
  exact ⟨hrun, hgrows, _, rfl, hrecorded⟩

end Compose
end ManifestTree
