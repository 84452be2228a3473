import ManifestTree.Proofs.ComposedDocuments
import ManifestTree.Proofs.KeyOrder

/-!
# Composing into documents that differ in the order of keys

Whether a tree composes into a document does not depend on the order of the document's keys, and
what comes out depends on it in the order of keys alone. Two parts of a pass end alike when, behind
whatever logs, both fail or both answer, and then with related answers; the rules here say so for
each way of building a part. Trees with transforms are left out, whose functions may look at the
order of keys.
-/

namespace ManifestTree

open Json
open List (Forall₂)

/-! ## Parts that end alike -/

/-- Two outcomes alike: related answers, or failures. -/
inductive AlikeOutcomes {α β : Type} (R : α → β → Prop) :
    Except Failure α → Except Failure β → Prop where
  | answers {answer : α} {other : β} (h : R answer other) : AlikeOutcomes R (.ok answer) (.ok other)
  | failures (failure other : Failure) : AlikeOutcomes R (.error failure) (.error other)

theorem AlikeOutcomes.trans {α β γ : Type} {R : α → β → Prop} {S : β → γ → Prop}
    {T : α → γ → Prop} (htrans : ∀ x y z, R x y → S y z → T x z) {first : Except Failure α}
    {second : Except Failure β} {third : Except Failure γ} (h : AlikeOutcomes R first second)
    (hother : AlikeOutcomes S second third) : AlikeOutcomes T first third := by
  cases h with
  | failures failure _ =>
    cases hother
    exact .failures _ _
  | answers hR =>
    cases hother with
    | answers hS => exact .answers (htrans _ _ _ hR hS)

namespace Weaving

variable {α β γ δ : Type}

/-- Behind whatever logs, both parts fail, or both answer and the answers are related. -/
def EndsLike (R : α → β → Prop) (part : Weaving α) (other : Weaving β) : Prop :=
  ∀ log twin, AlikeOutcomes R (exec part log).1 (exec other twin).1

theorem EndsLike.pure {R : α → β → Prop} {answer : α} {other : β} (h : R answer other) :
    EndsLike R (Pure.pure answer) (Pure.pure other) := fun _ _ ↦ .answers h

theorem EndsLike.bind {R : α → β → Prop} {S : γ → δ → Prop} {part : Weaving α} {other : Weaving β}
    {next : α → Weaving γ} {following : β → Weaving δ} (h : EndsLike R part other)
    (hnext : ∀ answer twin, R answer twin → EndsLike S (next answer) (following twin)) :
    EndsLike S (part >>= next) (other >>= following) := by
  intro log twin
  have hfirst := h log twin
  rcases hpart : exec part log with ⟨failure | answer, after⟩
  · rcases hother : exec other twin with ⟨failure' | answer', after'⟩
    · rw [exec_bind_of_error hpart, exec_bind_of_error hother]
      exact .failures _ _
    · rw [hpart, hother] at hfirst
      cases hfirst
  · rcases hother : exec other twin with ⟨failure' | answer', after'⟩
    · rw [hpart, hother] at hfirst
      cases hfirst
    · rw [hpart, hother] at hfirst
      rw [exec_bind_of_ok hpart, exec_bind_of_ok hother]
      cases hfirst with
      | answers hR => exact hnext answer answer' hR after after'

theorem EndsLike.trans {R : α → β → Prop} {S : β → γ → Prop} {T : α → γ → Prop}
    {part : Weaving α} {other : Weaving β} {third : Weaving γ}
    (htrans : ∀ x y z, R x y → S y z → T x z) (h : EndsLike R part other)
    (hother : EndsLike S other third) : EndsLike T part third :=
  fun log twin ↦ (h log twin).trans htrans (hother twin twin)

theorem EndsLike.settleWith (outcome : Except Failure α) :
    EndsLike (fun answer other ↦ answer = other ∧ outcome = .ok other)
      (Compose.settleWith outcome) (Compose.settleWith outcome) := by
  intro log twin
  rw [exec_settleWith, exec_settleWith]
  cases outcome with
  | error failure => exact .failures _ _
  | ok answer => exact .answers ⟨rfl, rfl⟩

theorem EndsLike.note (change : PassLog → PassLog) :
    EndsLike (fun _ _ ↦ True) (Compose.note change) (Compose.note change) :=
  fun _ _ ↦ .answers trivial

/-- Two writers with one outcome, on documents that match afterwards. -/
theorem EndsLike.written {result other : Except Failure α × Json} (h : result.1 = other.1)
    (hdocument : result.2.Matches other.2) :
    EndsLike (fun answer twin ↦ answer.1 = twin.1 ∧ answer.2.Matches twin.2)
      (Compose.written result) (Compose.written other) := by
  intro log twin
  rw [exec_written, exec_written]
  rcases result with ⟨outcome, document⟩
  rcases other with ⟨_, twinDocument⟩
  cases h
  cases outcome with
  | error failure => exact .failures _ _
  | ok answer => exact .answers ⟨rfl, hdocument⟩

end Weaving

namespace Compose

open Weaving

/-! ## Writers -/

section Writers

variable {base path : FieldPath} {document twin value other : Json}

theorem putElement_endsLike (relation : Option Relation) (hdocument : document.Matches twin)
    (hvalue : value.Matches other) :
    EndsLike Matches (putElement relation base document value)
      (putElement relation base twin other) := by
  have hwritten {α : Type} (target : FieldPath) {action second : Action α}
      (hagree : Action.Agree action second) :
      EndsLike Matches (do pure (← written (document.write target action)).2)
        (do pure (← written (twin.write target second)).2) := by
    obtain ⟨houtcome, hmatches⟩ := write_agree target hagree hdocument
    exact (EndsLike.written houtcome hmatches).bind fun _ _ h ↦ .pure h.2
  unfold putElement
  cases relation with
  | none => exact hwritten base (layOver_agree hvalue)
  | some relation =>
    dsimp only
    split
    · exact hwritten _ (addItem_agree _ hvalue)
    · exact hwritten _ (fill_agree _ hvalue)

theorem putLiteral_endsLike (isItem : Bool) {written : Option Json}
    (hdocument : document.Matches twin)
    (hwritten : ∀ value, written = some value → value.WellFormed) :
    EndsLike (fun answer other ↦ answer.1 = other.1 ∧ answer.2.Matches other.2)
      (putLiteral base path written isItem document)
      (putLiteral base path written isItem twin) := by
  unfold putLiteral
  dsimp only
  split
  · have hvalue : (written.getD (.object [])).WellFormed := by
      cases written with
      | none => exact ⟨List.nodup_nil, trivial⟩
      | some value => exact hwritten value rfl
    obtain ⟨houtcome, hmatches⟩ :=
      write_agree (base.join path) (addItem_agree (base.join path) (.refl hvalue)) hdocument
    exact (EndsLike.written houtcome hmatches).bind fun _ _ h ↦ .pure ⟨h.1 ▸ rfl, h.2⟩
  · split
    · next value =>
      obtain ⟨houtcome, hmatches⟩ := write_agree (base.join path)
        (fill_agree (base.join path) (.refl (hwritten value rfl))) hdocument
      exact (EndsLike.written houtcome hmatches).bind fun _ _ h ↦ .pure ⟨rfl, h.2⟩
    · exact .pure ⟨rfl, hdocument⟩

end Writers

/-- A read goes on with the same value behind both. -/
theorem read_endsLike {α : Type} {R : α → α → Prop} {part other : Weaving α}
    (h : EndsLike R part other) (lacks : Bool) (handle : Handle) :
    EndsLike R
      (if lacks then do
          note fun log ↦ log.addPending handle
          part
        else part)
      (if lacks then do
          note fun log ↦ log.addPending handle
          other
        else other) := by
  cases lacks with
  | true => exact (EndsLike.note _).bind fun _ _ _ ↦ h
  | false => exact h

/-! ## The same tree in both -/

variable {context : Context}

mutual

/-- A tree composes into matching documents alike. -/
theorem weave_endsLike : ∀ node : Node, node.WellFormed context.supplies →
    node.TransformFree context.supplies → ∀ (enclosing : List TypeName) (base : FieldPath)
    {document twin : Json}, document.Matches twin →
    EndsLike Matches (weave context enclosing base document node)
      (weave context enclosing base twin node)
  | .fragment children, hwf, hfree, enclosing, base, _, _, hdocument => by
    rw [weave, weave]
    exact weaveAll_endsLike children hwf hfree enclosing base hdocument
  | .element type props tag children, hwf, hfree, enclosing, base, _, _, hdocument => by
    rw [weave, weave]
    refine (EndsLike.settleWith _).bind ?_
    rintro relation _ ⟨rfl, -⟩
    refine (EndsLike.settleWith _).bind ?_
    rintro fields _ ⟨rfl, hexpand⟩
    have hfields := Matches.refl (FieldRules.expand_wellFormed hexpand hwf.1)
    exact (weaveAll_endsLike children hwf.2 hfree (enclosing ++ [type]) .root hfields).bind
      fun _ _ hvalue ↦ putElement_endsLike relation hdocument hvalue
  | .literal path value isItem children, hwf, hfree, enclosing, base, _, _, hdocument => by
    rw [weave, weave]
    refine (putLiteral_endsLike isItem hdocument hwf.1).bind ?_
    rintro ⟨inner, document⟩ ⟨_, twin⟩ ⟨rfl, hinner⟩
    exact weaveAll_endsLike children hwf.2 hfree enclosing inner hinner
  | .transform _ _, _, hfree, _, _, _, _, _ => hfree.elim
  | .component name script, hwf, hfree, enclosing, base, _, _, hdocument => by
    rw [weave, weave]
    exact (EndsLike.note _).bind fun _ _ _ ↦
      weaveScript_endsLike name script hwf hfree enclosing base hdocument

theorem weaveAll_endsLike : ∀ nodes : List Node, Node.AllWellFormed context.supplies nodes →
    Node.AllTransformFree context.supplies nodes → ∀ (enclosing : List TypeName)
    (base : FieldPath) {document twin : Json}, document.Matches twin →
    EndsLike Matches (weaveAll context enclosing base document nodes)
      (weaveAll context enclosing base twin nodes)
  | [], _, _, _, _, _, _, hdocument => by
    rw [weaveAll, weaveAll]
    exact .pure hdocument
  | node :: rest, hwf, hfree, enclosing, base, _, _, hdocument => by
    rw [weaveAll, weaveAll]
    exact (weave_endsLike node hwf.1 hfree.1 enclosing base hdocument).bind fun _ _ hleft ↦
      weaveAll_endsLike rest hwf.2 hfree.2 enclosing base hleft

theorem weaveScript_endsLike (owner : String) : ∀ script : Script,
    script.WellFormed context.supplies → script.TransformFree context.supplies →
    ∀ (enclosing : List TypeName) (base : FieldPath) {document twin : Json},
    document.Matches twin →
    EndsLike Matches (weaveScript context owner enclosing base document script)
      (weaveScript context owner enclosing base twin script)
  | .yield node, hwf, hfree, enclosing, base, _, _, hdocument => by
    rw [weaveScript, weaveScript]
    exact weave_endsLike node hwf hfree enclosing base hdocument
  | .suspend, _, _, _, _, _, _, hdocument => by
    rw [weaveScript, weaveScript]
    exact (EndsLike.note _).bind fun _ _ _ ↦ .pure hdocument
  | .read handle next, hwf, hfree, enclosing, base, _, _, hdocument => by
    rw [weaveScript, weaveScript]
    exact read_endsLike (weaveScript_endsLike owner (next (context.supplies.value? handle)) hwf
      hfree enclosing base hdocument) _ handle
  | .require _ _ next, hwf, hfree, enclosing, base, _, _, hdocument => by
    rw [weaveScript, weaveScript]
    exact (EndsLike.note _).bind fun _ _ _ ↦
      weaveScript_endsLike owner next hwf hfree enclosing base hdocument

end

/-! ## Documents -/

/-- Nodes that fill a vacant document alike make documents alike. -/
theorem documentOf_endsLike {node other : Node}
    (h : EndsLike Matches (weave context [] .root .null node)
      (weave context [] .root .null other)) :
    EndsLike Matches (documentOf context node) (documentOf context other) := by
  unfold documentOf
  refine h.bind fun document twin hdocument ↦ ?_
  rcases hdocument.cases with ⟨_, _, rfl, rfl, -⟩ | ⟨_, _, rfl, rfl, -⟩ | ⟨rfl, -⟩
  · exact .pure hdocument
  · exact .pure hdocument
  · split
    · exact .pure (.refl ⟨List.nodup_nil, trivial⟩)
    · exact .pure hdocument

theorem single_endsLike {node other : Node}
    (h : EndsLike Matches (weave context [] .root .null node)
      (weave context [] .root .null other)) :
    EndsLike (Forall₂ Matches) (do pure [← documentOf context node])
      (do pure [← documentOf context other]) :=
  (documentOf_endsLike h).bind fun _ _ hdocument ↦ .pure (.cons hdocument .nil)

/-- Documents of the first nodes, and behind them those of the others. -/
theorem followed_endsLike {front other : Weaving (List Json)} {back twin : Weaving (List Json)}
    (h : EndsLike (Forall₂ Matches) front other) (hback : EndsLike (Forall₂ Matches) back twin) :
    EndsLike (Forall₂ Matches)
      (do
        let documents ← front
        let more ← back
        pure (documents ++ more))
      (do
        let documents ← other
        let more ← twin
        pure (documents ++ more)) :=
  h.bind fun _ _ hdocuments ↦ hback.bind fun _ _ hmore ↦ .pure (List.rel_append hdocuments hmore)

mutual

/-- Behind whatever logs, a tree comes to documents alike. -/
theorem collect_endsLike : ∀ node : Node, node.WellFormed context.supplies →
    node.TransformFree context.supplies →
    EndsLike (Forall₂ Matches) (collect context node) (collect context node)
  | .fragment children, hwf, hfree => by
    rw [collect]
    exact collectAll_endsLike children hwf hfree
  | .component name script, hwf, hfree => by
    rw [collect]
    exact (EndsLike.note _).bind fun _ _ _ ↦ collectScript_endsLike name script hwf hfree
  | .element type props tag children, hwf, hfree => by
    rw [collect]
    exact single_endsLike (weave_endsLike (.element type props tag children) hwf hfree _ _
      (.refl trivial))
  | .literal path value isItem children, hwf, hfree => by
    rw [collect]
    exact single_endsLike (weave_endsLike (.literal path value isItem children) hwf hfree _ _
      (.refl trivial))
  | .transform _ _, _, hfree => hfree.elim

theorem collectAll_endsLike : ∀ nodes : List Node, Node.AllWellFormed context.supplies nodes →
    Node.AllTransformFree context.supplies nodes →
    EndsLike (Forall₂ Matches) (collectAll context nodes) (collectAll context nodes)
  | [], _, _ => by
    rw [collectAll]
    exact .pure .nil
  | node :: rest, hwf, hfree => by
    rw [collectAll]
    exact followed_endsLike (collect_endsLike node hwf.1 hfree.1)
      (collectAll_endsLike rest hwf.2 hfree.2)

theorem collectScript_endsLike (owner : String) : ∀ script : Script,
    script.WellFormed context.supplies → script.TransformFree context.supplies →
    EndsLike (Forall₂ Matches) (collectScript context owner script)
      (collectScript context owner script)
  | .yield node, hwf, hfree => by
    rw [collectScript]
    exact collect_endsLike node hwf hfree
  | .suspend, _, _ => by
    rw [collectScript]
    exact (EndsLike.note _).bind fun _ _ _ ↦ .pure .nil
  | .read handle next, hwf, hfree => by
    rw [collectScript]
    exact read_endsLike (collectScript_endsLike owner (next (context.supplies.value? handle)) hwf
      hfree) _ handle
  | .require _ _ next, hwf, hfree => by
    rw [collectScript]
    exact (EndsLike.note _).bind fun _ _ _ ↦ collectScript_endsLike owner next hwf hfree

end

end Compose
end ManifestTree
