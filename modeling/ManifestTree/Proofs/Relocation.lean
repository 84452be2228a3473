import ManifestTree.Proofs.ComposedDocuments
import ManifestTree.Proofs.Overlaying

/-!
# Composing in place and aside

A writer that works at a base inside a document does to the value there what it does to that value
as a document of its own: it succeeds alike, and the document afterwards is the one before with the
value replaced. Inside an element the same holds of every part of a pass, so that a transform, which
composes its children aside and lays the rewritten value back, is composing them in place and
laying the rewritten value over what that gave. Failures name different places and are not
compared; outside every element, where elements are laid over what is there, nothing is claimed.
-/

namespace ManifestTree

namespace Association

variable {κ ν : Type} [DecidableEq κ]

@[simp]
theorem insert_insert (key : κ) (value other : ν) (entries : Association κ ν) :
    insert key other (insert key value entries) = insert key other entries := by
  induction entries with
  | nil => simp [insert]
  | cons entry rest ih =>
    rcases entry with ⟨name, old⟩
    by_cases hname : name = key
    · simp [insert, hname]
    · simp [insert, hname, ih]

/-- Inserting what is there changes nothing. -/
theorem insert_of_get? {key : κ} {value : ν} {entries : Association κ ν}
    (h : get? key entries = some value) : insert key value entries = entries := by
  induction entries with
  | nil => cases h
  | cons entry rest ih =>
    rcases entry with ⟨name, old⟩
    by_cases hname : name = key
    · subst hname
      rw [get?_cons_self, Option.some.injEq] at h
      rw [insert, if_pos rfl, h]
    · rw [get?_cons_of_ne hname] at h
      rw [insert, if_neg hname, ih h]

end Association

theorem FieldPath.join_assoc (base path other : FieldPath) :
    (base.join path).join other = base.join (path.join other) :=
  congrArg FieldPath.mk (List.append_assoc base.steps path.steps other.steps)

theorem FieldPath.join_index (base path : FieldPath) (position : Nat) :
    (base.join path).index position = base.join (path.index position) :=
  congrArg FieldPath.mk (List.append_assoc base.steps path.steps [.index position])

namespace Json

/-! ## Replacing a value inside a document -/

/-- The document with the value at the end of some steps replaced; where they lead nowhere, nothing
changes. -/
def replaceSteps (value : Json) : List Step → Json → Json
  | [], _ => value
  | .key name :: rest, object members =>
    match Members.get? members name with
    | some inner => object (Members.insert members name (replaceSteps value rest inner))
    | none => object members
  | .index position :: rest, array items =>
    match items[position]? with
    | some inner => array (items.set position (replaceSteps value rest inner))
    | none => array items
  | _ :: _, document => document

def replace (document : Json) (path : FieldPath) (value : Json) : Json :=
  replaceSteps value path.steps document

/-- The steps lead through a document to a value. -/
inductive Leads (value : Json) : List Step → Json → Prop where
  | here : Leads value [] value
  | member {name : String} {rest : List Step} {members : Members} {inner : Json} :
    Members.get? members name = some inner → Leads value rest inner →
      Leads value (.key name :: rest) (object members)
  | item {position : Nat} {rest : List Step} {items : List Json} {inner : Json} :
    items[position]? = some inner → Leads value rest inner →
      Leads value (.index position :: rest) (array items)

theorem leads_of_getSteps? {steps : List Step} {document value : Json}
    (h : getSteps? steps document = some value) : Leads value steps document := by
  induction steps generalizing document with
  | nil =>
    cases h
    exact .here
  | cons step rest ih =>
    cases step with
    | key name =>
      cases document with
      | object members =>
        rw [getSteps?_key, Option.bind_eq_some_iff] at h
        obtain ⟨inner, hinner, hvalue⟩ := h
        exact .member hinner (ih hvalue)
      | _ => cases h
    | index position =>
      cases document with
      | array items =>
        rw [getSteps?_index, Option.bind_eq_some_iff] at h
        obtain ⟨inner, hinner, hvalue⟩ := h
        exact .item hinner (ih hvalue)
      | _ => cases h

section Replace

variable {steps : List Step} {document old : Json}

theorem replaceSteps_key {members : Members} {name : String} {inner : Json}
    (h : Members.get? members name = some inner) (value : Json) (rest : List Step) :
    replaceSteps value (.key name :: rest) (object members) =
      object (Members.insert members name (replaceSteps value rest inner)) := by
  rw [replaceSteps, h]

theorem replaceSteps_index {items : List Json} {position : Nat} {inner : Json}
    (h : items[position]? = some inner) (value : Json) (rest : List Step) :
    replaceSteps value (.index position :: rest) (array items) =
      array (items.set position (replaceSteps value rest inner)) := by
  rw [replaceSteps, h]

theorem Leads.getSteps?_replaceSteps (h : Leads old steps document) (value : Json) :
    getSteps? steps (replaceSteps value steps document) = some value := by
  induction h with
  | here => exact getSteps?_nil value
  | member hinner _ ih =>
    rw [replaceSteps_key hinner, getSteps?_insert, if_pos rfl]
    exact ih
  | item hinner _ ih =>
    rw [replaceSteps_index hinner, getSteps?_set hinner, if_pos rfl]
    exact ih

/-- Of two replacements at one place the later one counts. -/
theorem Leads.replaceSteps_replaceSteps (h : Leads old steps document) (value other : Json) :
    replaceSteps other steps (replaceSteps value steps document) =
      replaceSteps other steps document := by
  induction h with
  | here => rfl
  | @member name rest members inner hinner _ ih =>
    have hvalue : Members.get? (Members.insert members name (replaceSteps value rest inner)) name =
        some (replaceSteps value rest inner) := Association.get?_insert_self name _ members
    rw [replaceSteps_key hinner, replaceSteps_key hinner, replaceSteps_key hvalue, ih]
    exact congrArg object (Association.insert_insert name _ _ members)
  | item hinner _ ih =>
    rw [replaceSteps_index hinner, replaceSteps_index hinner,
      replaceSteps_index (getElem?_set_of_getElem? hinner _), ih, List.set_set]

/-- Replacing a value by itself changes nothing. -/
theorem Leads.replaceSteps_self (h : Leads old steps document) :
    replaceSteps old steps document = document := by
  induction h with
  | here => rfl
  | member hinner _ ih =>
    rw [replaceSteps_key hinner, ih]
    exact congrArg object (Association.insert_of_get? hinner)
  | @item position rest items inner hinner _ ih =>
    rw [replaceSteps_index hinner, ih]
    congr 1
    apply List.ext_getElem?
    intro other
    by_cases hother : position = other
    · subst hother
      rw [getElem?_set_of_getElem? hinner, hinner]
    · rw [List.getElem?_set_ne hother]

end Replace

end Json

/-! ## Results without the reason of a failure -/

/-- An outcome with what it left behind, the reason of a failure forgotten. -/
def Failure.forget {α β : Type} (result : Except Failure α × β) : Option α × β :=
  (result.1.toOption, result.2)

namespace Json

/-! ## Writers -/

section Write

variable {α : Type} {action other : Action α}

/-- Actions that do the same, except for the reason of a failure. -/
def Action.SameBut (action other : Action α) : Prop :=
  ∀ place, Failure.forget (action place) = Failure.forget (other place)

theorem fill_sameBut (path second : FieldPath) (value : Json) :
    (fill path value).SameBut (fill second value) := by
  rintro (_ | old)
  · rfl
  · cases old <;> rfl

theorem addItem_sameBut (path second : FieldPath) (value : Json) :
    (addItem path value).SameBut (addItem second value) := by
  rintro (_ | old)
  · rfl
  · cases old <;> rfl

/-- A walk does not look at the steps already taken, except for the reason of a failure. -/
theorem forget_walk (h : action.SameBut other) (path second : FieldPath)
    (taken before steps : List Step) (place : Place) :
    Failure.forget (walk path action taken steps place) =
      Failure.forget (walk second other before steps place) := by
  induction steps generalizing taken before place with
  | nil => exact h place
  | cons step rest ih =>
    cases step with
    | key name =>
      have ih := ih (taken ++ [.key name]) (before ++ [.key name])
      simp only [Failure.forget, Prod.mk.injEq] at ih
      cases place with
      | none => simp [walk, Failure.forget, ih none]
      | some old =>
        cases old with
        | object members => simp [walk, Failure.forget, ih (Members.get? members name)]
        | _ => rfl
    | index position =>
      have ih := ih (taken ++ [.index position]) (before ++ [.index position])
      simp only [Failure.forget, Prod.mk.injEq] at ih
      cases place with
      | none => rfl
      | some old =>
        cases old with
        | array items =>
          cases hitem : items[position]? with
          | none => simp [walk, Failure.forget, hitem, Except.toOption]
          | some item => simp [walk, Failure.forget, hitem, ih (some item)]
        | _ => rfl

/-- A walk through a value inside a document is the walk from there, with its result put back. -/
theorem Leads.walk_append {front : List Step} {document inner : Json}
    (h : Leads inner front document) (path : FieldPath) (action : Action α)
    (taken steps : List Step) :
    Prod.map id (Option.getD · null) (walk path action taken (front ++ steps) (some document)) =
      Prod.map id (fun place ↦ replaceSteps (place.getD null) front document)
        (walk path action (taken ++ front) steps (some inner)) := by
  induction h generalizing taken with
  | here =>
    rw [List.append_nil]
    rfl
  | @member name rest members below hbelow _ ih =>
    have ih := ih (taken ++ [.key name])
    rw [List.append_assoc, List.singleton_append] at ih
    simp only [Prod.map, Prod.mk.injEq] at ih
    simp only [List.cons_append, walk, hbelow, Prod.map, Option.getD_some, ih.1, ih.2,
      replaceSteps_key hbelow]
  | @item position rest items below hbelow _ ih =>
    have ih := ih (taken ++ [.index position])
    rw [List.append_assoc, List.singleton_append] at ih
    simp only [Prod.map, Prod.mk.injEq] at ih
    simp only [List.cons_append, walk, hbelow, Prod.map, Option.getD_some, ih.1, ih.2,
      replaceSteps_index hbelow]

theorem Leads.ne_null {value document : Json} {steps : List Step} (h : Leads value steps document)
    (hvalue : value ≠ null) : document ≠ null := by
  cases h with
  | here => exact hvalue
  | member _ _ => exact Json.noConfusion
  | item _ _ => exact Json.noConfusion

/-- A writer inside a replaced value does to it what it does to a document of its own. -/
theorem Leads.write_replace {document old value : Json} {base path : FieldPath}
    (h : Leads old base.steps document) (hvalue : value ≠ null) (hsame : action.SameBut other) :
    Failure.forget ((document.replace base value).write (base.join path) action) =
      Prod.map id (document.replace base) (Failure.forget (value.write path other)) := by
  have hlead : Leads value base.steps (document.replace base value) :=
    leads_of_getSteps? (h.getSteps?_replaceSteps value)
  have hwalk := hlead.walk_append (base.join path) action [] path.steps
  have hforget := forget_walk hsame (base.join path) path ([] ++ base.steps) [] path.steps
    (some value)
  simp only [Prod.map, Prod.mk.injEq, id] at hwalk
  simp only [Failure.forget, Prod.mk.injEq] at hforget
  simp only [write, Place.ofDocument_eq_some hvalue,
    Place.ofDocument_eq_some (hlead.ne_null hvalue), Failure.forget, Prod.map, id,
    Prod.mk.injEq]
  refine ⟨?_, ?_⟩
  · rw [← hforget.1, ← hwalk.1]
    rfl
  · rw [← hforget.2]
    exact hwalk.2.trans (h.replaceSteps_replaceSteps value _)

/-- Laying over a value inside a document replaces it. -/
theorem Leads.mergeAt {document old : Json} {base : FieldPath} (h : Leads old base.steps document)
    (hold : old ≠ null) (layer : Json) :
    document.mergeAt base layer = (.ok (), document.replace base (old.overlay layer)) := by
  have hwalk := h.walk_append base (layOver layer) [] []
  rw [List.append_nil] at hwalk
  simp only [Prod.map, Prod.mk.injEq, id] at hwalk
  rw [Json.mergeAt, write, Place.ofDocument_eq_some (h.ne_null hold)]
  simp only [Prod.mk.injEq]
  exact hwalk

end Write

end Json

/-! ## Parts of a pass -/

namespace Weaving

variable {α β γ δ : Type}

/-- Behind every log the one part does what the other one does, with the same log after, up to a
function on the answers and the reason of a failure. -/
def Mirrors (translate : β → α) (part : Weaving α) (other : Weaving β) : Prop :=
  ∀ log, Failure.forget (exec part log) =
    Prod.map (Option.map translate) id (Failure.forget (exec other log))

theorem Mirrors.refl (part : Weaving α) : Mirrors id part part := by
  intro log
  simp

theorem Mirrors.pure (translate : β → α) (answer : β) :
    Mirrors translate (Pure.pure (translate answer)) (Pure.pure answer) := fun _ ↦ rfl

theorem Mirrors.error {translate : β → α} {part : Weaving α} {other : Weaving β}
    (h : Mirrors translate part other) {log after : PassLog} {failure : Failure}
    (hother : exec other log = (.error failure, after)) :
    ∃ reason, exec part log = (.error reason, after) := by
  have hlog := h log
  rw [hother] at hlog
  rcases hpart : exec part log with ⟨reason | answer, left⟩
  · rw [hpart] at hlog
    cases hlog
    exact ⟨reason, rfl⟩
  · rw [hpart] at hlog
    cases hlog

theorem Mirrors.ok {translate : β → α} {part : Weaving α} {other : Weaving β}
    (h : Mirrors translate part other) {log after : PassLog} {answer : β}
    (hother : exec other log = (.ok answer, after)) :
    exec part log = (.ok (translate answer), after) := by
  have hlog := h log
  rw [hother] at hlog
  rcases hpart : exec part log with ⟨reason | found, left⟩
  · rw [hpart] at hlog
    cases hlog
  · rw [hpart] at hlog
    cases hlog
    rfl

/-- Parts mirror one another when their first parts do, and then their second ones behind every
answer that the first ones give. -/
theorem Mirrors.bind {translate : β → α} {onward : δ → γ} {part : Weaving α} {other : Weaving β}
    {next : α → Weaving γ} {following : β → Weaving δ} (h : Mirrors translate part other)
    (hnext : ∀ log answer after, exec other log = (.ok answer, after) →
      Mirrors onward (next (translate answer)) (following answer)) :
    Mirrors onward (part >>= next) (other >>= following) := by
  intro log
  rcases hother : exec other log with ⟨failure | answer, after⟩
  · obtain ⟨reason, hpart⟩ := h.error hother
    rw [exec_bind_of_error hother, exec_bind_of_error hpart]
    rfl
  · rw [exec_bind_of_ok hother, exec_bind_of_ok (h.ok hother)]
    exact hnext log answer after hother after

theorem Mirrors.written {ι : Type} {translate : Json → Json}
    {result other : Except Failure ι × Json}
    (h : Failure.forget result = Prod.map id translate (Failure.forget other)) :
    Mirrors (Prod.map id translate) (Compose.written result) (Compose.written other) := by
  intro log
  rw [exec_written, exec_written]
  rcases result with ⟨reason | answer, document⟩ <;> rcases other with ⟨failure | found, left⟩ <;>
    cases h <;> rfl

end Weaving

namespace Compose

open Weaving

variable {context : Context} {document old : Json} {base : FieldPath}

theorem putElement_mirrors (hbase : Json.Leads old base.steps document) {relation : Relation}
    {place : FieldPath} {inner value : Json} (hinner : inner ≠ .null) :
    Mirrors (document.replace base)
      (putElement (some relation) (base.join place) (document.replace base inner) value)
      (putElement (some relation) place inner value) := by
  unfold putElement
  dsimp only
  rw [FieldPath.join_assoc]
  split
  · refine (Mirrors.written (hbase.write_replace hinner (Json.addItem_sameBut _ _ value))).bind ?_
    exact fun _ answer _ _ ↦ Mirrors.pure (document.replace base) answer.2
  · refine (Mirrors.written (hbase.write_replace hinner (Json.fill_sameBut _ _ value))).bind ?_
    exact fun _ answer _ _ ↦ Mirrors.pure (document.replace base) answer.2

theorem putLiteral_mirrors (hbase : Json.Leads old base.steps document) {place path : FieldPath}
    {value : Option Json} {isItem : Bool} {inner : Json} (hinner : inner ≠ .null) :
    Mirrors (Prod.map base.join (document.replace base))
      (putLiteral (base.join place) path value isItem (document.replace base inner))
      (putLiteral place path value isItem inner) := by
  unfold putLiteral
  dsimp only
  rw [FieldPath.join_assoc]
  split
  · refine (Mirrors.written (hbase.write_replace hinner (Json.addItem_sameBut _ _ _))).bind ?_
    rintro _ ⟨position, left⟩ _ -
    dsimp only [Prod.map]
    rw [FieldPath.join_index]
    exact Mirrors.pure (Prod.map base.join (document.replace base)) (_, left)
  · split
    · refine (Mirrors.written (hbase.write_replace hinner (Json.fill_sameBut _ _ _))).bind ?_
      exact fun _ answer _ _ ↦
        Mirrors.pure (Prod.map base.join (document.replace base)) (_, answer.2)
    · exact Mirrors.pure (Prod.map base.join (document.replace base)) (_, inner)

mutual

/-- Inside an element, a node composed into a value inside a document does there what it does to
the value alone. -/
theorem weave_mirrors (hbase : Json.Leads old base.steps document) : ∀ node : Node,
    node.TransformFree context.supplies →
    ∀ (enclosing : List TypeName) (place : FieldPath) {inner : Json}, enclosing ≠ [] →
    inner ≠ .null →
    Mirrors (document.replace base)
      (weave context enclosing (base.join place) (document.replace base inner) node)
      (weave context enclosing place inner node)
  | .fragment children, hfree, enclosing, place, inner, henclosing, hinner => by
    rw [weave, weave]
    exact weaveAll_mirrors hbase children hfree enclosing place henclosing hinner
  | .element type props tag children, _, enclosing, place, inner, henclosing, hinner => by
    rw [weave, weave]
    refine (Mirrors.refl _).bind fun log relation after hlocate ↦ ?_
    rw [exec_settleWith, Prod.mk.injEq] at hlocate
    obtain ⟨found, rfl⟩ := locate_eq_some henclosing hlocate.1
    refine (Mirrors.refl _).bind fun _ _ _ _ ↦ (Mirrors.refl _).bind fun _ _ _ _ ↦ ?_
    exact putElement_mirrors hbase hinner
  | .literal path value isItem children, hfree, enclosing, place, inner, henclosing, hinner => by
    rw [weave, weave]
    refine (putLiteral_mirrors hbase hinner).bind fun _ own _ hput ↦ ?_
    exact weaveAll_mirrors hbase children hfree enclosing own.1 henclosing
      ((putLiteral_recorded hinner hput).ne_null hinner)
  | .transform _ _, hfree, _, _, _, _, _ => hfree.elim
  | .component name script, hfree, enclosing, place, inner, henclosing, hinner => by
    rw [weave, weave]
    exact (Mirrors.refl _).bind fun _ _ _ _ ↦
      weaveScript_mirrors hbase name script hfree enclosing place henclosing hinner

theorem weaveAll_mirrors (hbase : Json.Leads old base.steps document) : ∀ nodes : List Node,
    Node.AllTransformFree context.supplies nodes →
    ∀ (enclosing : List TypeName) (place : FieldPath) {inner : Json}, enclosing ≠ [] →
    inner ≠ .null →
    Mirrors (document.replace base)
      (weaveAll context enclosing (base.join place) (document.replace base inner) nodes)
      (weaveAll context enclosing place inner nodes)
  | [], _, _, _, inner, _, _ => Mirrors.pure (document.replace base) inner
  | node :: rest, hfree, enclosing, place, inner, henclosing, hinner => by
    rw [weaveAll, weaveAll]
    refine (weave_mirrors hbase node hfree.1 enclosing place henclosing hinner).bind
      fun _ left _ hnode ↦ ?_
    have hgrows := (weave_onlyAdds henclosing hinner hfree.1 hnode).1
    exact weaveAll_mirrors hbase rest hfree.2 enclosing place henclosing (hgrows.ne_null hinner)

theorem weaveScript_mirrors (hbase : Json.Leads old base.steps document) (owner : String) :
    ∀ script : Script, script.TransformFree context.supplies →
    ∀ (enclosing : List TypeName) (place : FieldPath) {inner : Json}, enclosing ≠ [] →
    inner ≠ .null →
    Mirrors (document.replace base)
      (weaveScript context owner enclosing (base.join place) (document.replace base inner) script)
      (weaveScript context owner enclosing place inner script)
  | .yield node, hfree, enclosing, place, inner, henclosing, hinner => by
    rw [weaveScript, weaveScript]
    exact weave_mirrors hbase node hfree enclosing place henclosing hinner
  | .suspend, _, _, _, inner, _, _ => by
    rw [weaveScript, weaveScript]
    exact (Mirrors.refl _).bind fun _ _ _ _ ↦ Mirrors.pure (document.replace base) inner
  | .read handle next, hfree, enclosing, place, inner, henclosing, hinner => by
    have hnext := weaveScript_mirrors hbase owner (next (context.supplies.value? handle)) hfree
      enclosing place henclosing hinner
    rw [weaveScript, weaveScript]
    split
    · exact (Mirrors.refl _).bind fun _ _ _ _ ↦ hnext
    · exact hnext
  | .require _ _ next, hfree, enclosing, place, inner, henclosing, hinner => by
    rw [weaveScript, weaveScript]
    exact (Mirrors.refl _).bind fun _ _ _ _ ↦
      weaveScript_mirrors hbase owner next hfree enclosing place henclosing hinner

end

/-! ## Transforms -/

/-- Inside an element, a transform over an object is its children composed in place, with the result
of rewriting laid over the object that they give. Both fail with the same log, or both answer with
the same log; a rewriting that changes nothing shows nowhere, and a field that it leaves out is
kept. -/
theorem weave_transform {enclosing : List TypeName} {members : Members} {children : List Node}
    {rewrite : Json → Json} (henclosing : enclosing ≠ [])
    (hbase : document.get? base = some (.object members))
    (hmembers : (Json.object members).WellFormed)
    (hchildren : Node.AllWellFormed context.supplies children)
    (hfree : Node.AllTransformFree context.supplies children)
    (hrewrite : ∀ value : Json, value.WellFormed → (rewrite value).WellFormed) (log : PassLog) :
    (∃ failure reason after,
      exec (weave context enclosing base document (.fragment children)) log =
          (.error failure, after) ∧
        exec (weave context enclosing base document (.transform rewrite children)) log =
          (.error reason, after)) ∨
    ∃ result fields rewritten after,
      exec (weave context enclosing base document (.fragment children)) log =
          (.ok result, after) ∧
        result.get? base = some (.object fields) ∧
        rewritten = result.replace base ((Json.object fields).overlay (rewrite (.object fields))) ∧
        exec (weave context enclosing base document (.transform rewrite children)) log =
          (.ok rewritten, after) ∧
        (rewrite (.object fields) = .object fields → rewritten = result) ∧
        ∀ names, (rewrite (.object fields)).LeavesOut names →
          rewritten.get? (base.join (.ofKeys names)) = result.get? (base.join (.ofKeys names)) := by
  have hlead : Json.Leads (.object members) base.steps document := Json.leads_of_getSteps? hbase
  have hsame : document.replace base (.object members) = document := hlead.replaceSteps_self
  have hroot : base.join FieldPath.root = base := congrArg FieldPath.mk (List.append_nil base.steps)
  have hstart : startValue document base = .object members := by rw [startValue, hbase]
  have hmirrors := weaveAll_mirrors hlead children hfree enclosing FieldPath.root henclosing
    (Json.noConfusion : Json.object members ≠ .null)
  rw [hroot, hsame] at hmirrors
  rw [weave, weave, hstart]
  rcases haside : exec (weaveAll context enclosing .root (.object members) children) log
    with ⟨reason | scratch, after⟩
  · obtain ⟨failure, hplace⟩ := hmirrors.error haside
    exact .inl ⟨failure, reason, after, hplace, exec_bind_of_error haside _⟩
  · obtain ⟨placed, htraced⟩ := exec_weaveAllTraced haside
    have hgrows := (weaveAllTraced_records context children hfree enclosing .root _ henclosing
      Json.noConfusion _ _ _ _ htraced).grows
    have hscratch := weaveAll_answers children hchildren hfree enclosing .root henclosing hmembers
      _ _ _ haside
    obtain ⟨fields, rfl, -⟩ := Json.extendedBy_object_iff.mp hgrows
    have hread : (document.replace base (.object fields)).get? base = some (.object fields) :=
      hlead.getSteps?_replaceSteps _
    have habsorbed := Json.overlay_overlay_of_extendedBy hgrows hscratch (hrewrite _ hscratch)
    refine .inr ⟨_, fields, _, after, hmirrors.ok haside, hread, rfl, ?_, ?_, ?_⟩
    · rw [exec_bind_of_ok haside, hlead.mergeAt Json.noConfusion, habsorbed]
      exact congrArg (fun value ↦ (Except.ok value, after))
        (hlead.replaceSteps_replaceSteps _ _).symm
    · intro hidentity
      rw [hidentity, Json.overlay_of_extendedBy (Json.ExtendedBy.refl _) hscratch]
      exact hlead.replaceSteps_replaceSteps _ _
    · intro names hleaves
      have hafter : ((document.replace base (.object fields)).replace base
          ((Json.object fields).overlay (rewrite (.object fields)))).get? base =
          some ((Json.object fields).overlay (rewrite (.object fields))) :=
        (Json.leads_of_getSteps? hread).getSteps?_replaceSteps _
      rw [Json.get?_join, Json.get?_join, hread, hafter]
      exact Json.getSteps?_overlay_of_leavesOut hleaves (hrewrite _ hscratch) _

/-- A transform below a key: what stood there, the literal inside and the new label follow one
another, and the component that gives up is counted once. -/
theorem weave_transform_labels :
    let context : Context := ⟨default, "@", []⟩
    let base : FieldPath := .ofKeys ["metadata"]
    let document : Json := .object [("metadata", .object [("name", .string "web")])]
    let children : List Node :=
      [.literal (.ofKeys ["labels", "app"]) (some (.string "web")) false [],
        .component "late" .suspend]
    let rewrite : Json → Json :=
      fun _ ↦ .object [("labels", .object [("tier", .string "front")]), ("done", .bool true)]
    let rewritten : Json := .object [("metadata", .object [("name", .string "web"),
      ("labels", .object [("app", .string "web"), ("tier", .string "front")]),
      ("done", .bool true)])]
    exec (weave context [⟨"Pod"⟩] base document (.transform rewrite children)) PassLog.empty =
        (.ok rewritten, ⟨["late"], [], [], 1⟩) ∧
      ∃ result fields, exec (weave context [⟨"Pod"⟩] base document (.fragment children))
          PassLog.empty = (.ok result, ⟨["late"], [], [], 1⟩) ∧
        result.get? base = some (.object fields) ∧
        rewritten.get? (base.join (.ofKeys ["labels", "app"])) =
          result.get? (base.join (.ofKeys ["labels", "app"])) := by
  intro context base document children rewrite rewritten
  have htransform : exec (weave context [⟨"Pod"⟩] base document (.transform rewrite children))
      PassLog.empty = (.ok rewritten, ⟨["late"], [], [], 1⟩) := rfl
  have hrewrite : ∀ value : Json, value.WellFormed → (rewrite value).WellFormed := by
    intro value _
    simp [rewrite, Json.WellFormed, Json.MembersWellFormed]
  have hchildren : Node.AllWellFormed context.supplies children := by
    simp [children, Node.AllWellFormed, Node.WellFormed, Script.WellFormed, Json.WellFormed]
  have hmembers : (Json.object [("name", .string "web")]).WellFormed := by
    simp [Json.WellFormed, Json.MembersWellFormed]
  have hbase : document.get? base = some (.object [("name", .string "web")]) := rfl
  have hpod : [TypeName.mk "Pod"] ≠ [] := List.cons_ne_nil _ _
  rcases weave_transform hpod hbase hmembers hchildren ⟨trivial, trivial, trivial⟩ hrewrite
    PassLog.empty with
    ⟨_, _, _, -, hfails⟩ | ⟨result, fields, found, after, hplace, hread, -, haside, -, hkept⟩
  · cases htransform.symm.trans hfails
  · cases htransform.symm.trans haside
    exact ⟨htransform, result, fields, hplace, hread, hkept ["labels", "app"] trivial⟩

end Compose
end ManifestTree
