import Mathlib.Data.List.Induction
import ManifestTree.Decompose
import ManifestTree.Proofs.Association

/-!
# Documents are identified by what they say

A registration gives a pair of API version and kind a type, and the last one for a pair counts. A
document is looked up under the texts it has in the two fields, and under the empty text where it
has none. So a document is taken for what it says exactly as long as no registration has an empty
text in its pair: a document without a field is then of no known type, and one registration with an
empty text is enough for a document that lacks the field to be taken for an instance of its type.
-/

namespace ManifestTree

namespace Json

/-- A document says a text in a field: it is an object that holds the text there. -/
def Says (document : Json) (field text : String) : Prop :=
  ∃ members, document = object members ∧ Members.get? members field = some (string text)

/-- The text that stands for a field: what the document says there, or the empty text where it says
nothing. -/
def Quotes (document : Json) (field text : String) : Prop :=
  document.Says field text ∨ (∀ other, ¬ document.Says field other) ∧ text = ""

end Json

namespace TypeIndex

open Json

/-! ## Looking a document up -/

theorem textField_eq_of_said {document : Json} {field text : String}
    (h : document.Says field text) : textField document field = text := by
  obtain ⟨members, rfl, hget⟩ := h
  rw [textField, Json.members, hget]

theorem textField_eq_empty {document : Json} {field : String}
    (h : ∀ text, ¬ document.Says field text) : textField document field = "" := by
  unfold textField
  split
  · next text hget =>
    cases document with
    | object members => exact absurd ⟨members, rfl, hget⟩ (h text)
    | _ => cases hget
  · rfl

theorem quotes_iff (document : Json) (field text : String) :
    document.Quotes field text ↔ textField document field = text := by
  constructor
  · rintro (hsaid | ⟨hnothing, rfl⟩)
    · exact textField_eq_of_said hsaid
    · exact textField_eq_empty hnothing
  · rintro rfl
    by_cases hsaid : ∃ text, document.Says field text
    · obtain ⟨text, hsaid⟩ := hsaid
      rw [textField_eq_of_said hsaid]
      exact .inl hsaid
    · rw [not_exists] at hsaid
      exact .inr ⟨hsaid, textField_eq_empty hsaid⟩

theorem not_says_of_get?_eq_none {members : Members} {field : String}
    (h : members.get? field = none) (text : String) : ¬ (object members).Says field text := by
  rintro ⟨_, ⟨⟩, hget⟩
  cases h.symm.trans hget

/-- What is quoted and not empty is said. -/
theorem says_of_quotes {document : Json} {field text : String} (h : document.Quotes field text)
    (hne : text ≠ "") : document.Says field text :=
  h.resolve_right fun hnothing ↦ hne hnothing.2

/-! ## Registering types -/

structure Registration where
  apiVersion : String
  kind : String
  type : TypeName

/-- The index after registrations, one after another. -/
def registered (calls : List Registration) : TypeIndex :=
  calls.foldl (fun index call ↦ index.register call.apiVersion call.kind call.type) empty

/-- The last registration of a pair is the one for the type. -/
def LastFor (calls : List Registration) (apiVersion kind : String) (type : TypeName) : Prop :=
  ∃ earlier later, calls = earlier ++ ⟨apiVersion, kind, type⟩ :: later ∧
    ∀ call ∈ later, ¬ (call.apiVersion = apiVersion ∧ call.kind = kind)

theorem lookup_register (index : TypeIndex) (call : Registration) (apiVersion kind : String) :
    (index.register call.apiVersion call.kind call.type).lookup apiVersion kind =
      if call.apiVersion = apiVersion ∧ call.kind = kind then some call.type
      else index.lookup apiVersion kind := by
  simp only [lookup, register, Association.get?_insert, Prod.mk.injEq]

/-- A further registration is the last one of its pair and changes nothing for the other pairs. -/
theorem lastFor_append_singleton_iff (calls : List Registration) (call : Registration)
    (apiVersion kind : String) (type : TypeName) :
    LastFor (calls ++ [call]) apiVersion kind type ↔
      if call.apiVersion = apiVersion ∧ call.kind = kind then call.type = type
      else LastFor calls apiVersion kind type := by
  constructor
  · rintro ⟨earlier, later, heq, hlater⟩
    rcases later.eq_nil_or_concat' with rfl | ⟨later, last, rfl⟩
    · obtain ⟨-, hcall⟩ := List.append_inj' heq rfl
      cases (List.cons.inj hcall).1
      rw [if_pos ⟨rfl, rfl⟩]
    · rw [← List.cons_append, ← List.append_assoc] at heq
      obtain ⟨hcalls, hlast⟩ := List.append_inj' heq rfl
      cases (List.cons.inj hlast).1
      rw [if_neg (hlater call (List.mem_append_right _ (List.mem_singleton_self call)))]
      exact ⟨earlier, later, hcalls, fun other hmem ↦ hlater other (List.mem_append_left _ hmem)⟩
  · intro h
    split at h
    · next hpair =>
      obtain ⟨rfl, rfl⟩ := hpair
      exact ⟨calls, [], h ▸ rfl, fun _ hmem ↦ absurd hmem List.not_mem_nil⟩
    · next hpair =>
      obtain ⟨earlier, later, rfl, hlater⟩ := h
      refine ⟨earlier, later ++ [call], by simp, ?_⟩
      exact List.forall_mem_append.mpr ⟨hlater, List.forall_mem_singleton.mpr hpair⟩

theorem registered_append_singleton (calls : List Registration) (call : Registration) :
    registered (calls ++ [call]) =
      (registered calls).register call.apiVersion call.kind call.type := by
  rw [registered, List.foldl_append, ← registered, List.foldl_cons, List.foldl_nil]

/-- A look-up finds the type of the last registration of the pair. -/
theorem lookup_registered_iff (calls : List Registration) (apiVersion kind : String)
    (type : TypeName) : (registered calls).lookup apiVersion kind = some type ↔
      LastFor calls apiVersion kind type := by
  induction calls using List.reverseRecOn with
  | nil => simp [registered, empty, lookup, LastFor]
  | append_singleton calls call ih =>
    rw [registered_append_singleton, lookup_register, lastFor_append_singleton_iff]
    split
    · rw [Option.some.injEq]
    · exact ih

theorem exists_lastFor {calls : List Registration} {call : Registration} (h : call ∈ calls) :
    ∃ type, LastFor calls call.apiVersion call.kind type := by
  induction calls using List.reverseRecOn with
  | nil => cases h
  | append_singleton calls last ih =>
    simp only [lastFor_append_singleton_iff]
    split
    · exact ⟨last.type, rfl⟩
    · next hpair =>
      rcases List.mem_append.mp h with hmem | hmem
      · exact ih hmem
      · cases List.mem_singleton.mp hmem
        exact absurd ⟨rfl, rfl⟩ hpair

theorem LastFor.exists_call {calls : List Registration} {apiVersion kind : String}
    {type : TypeName} (h : LastFor calls apiVersion kind type) :
    ∃ call ∈ calls, call.apiVersion = apiVersion ∧ call.kind = kind := by
  obtain ⟨earlier, later, rfl, -⟩ := h
  exact ⟨_, List.mem_append_right _ List.mem_cons_self, rfl, rfl⟩

/-! ## Identifying documents -/

/-- A document is of the type that the last registration of the quoted pair gives. -/
theorem identify_eq_ok_iff {calls : List Registration} {document : Json} {apiVersion kind : String}
    (hversion : document.Quotes apiVersionField apiVersion) (hkind : document.Quotes kindField kind)
    (type : TypeName) :
    (registered calls).identify document = .ok type ↔ LastFor calls apiVersion kind type := by
  rw [← lookup_registered_iff, identify, (quotes_iff ..).mp hversion, (quotes_iff ..).mp hkind]
  cases (registered calls).lookup apiVersion kind <;> simp

/-- A document whose quoted pair has no registration is of no known type. -/
theorem identify_eq_error {calls : List Registration} {document : Json} {apiVersion kind : String}
    (hversion : document.Quotes apiVersionField apiVersion) (hkind : document.Quotes kindField kind)
    (h : ∀ type, ¬ LastFor calls apiVersion kind type) :
    (registered calls).identify document = .error (.unrecognized apiVersion kind) := by
  simp only [← lookup_registered_iff, ← ne_eq, ← Option.eq_none_iff_forall_ne_some] at h
  rw [identify, (quotes_iff ..).mp hversion, (quotes_iff ..).mp hkind]
  rw [h]

/-- A document names a type: it says both texts of a pair, and the last registration of the pair is
for the type. -/
def Names (calls : List Registration) (document : Json) (type : TypeName) : Prop :=
  ∃ apiVersion kind, document.Says apiVersionField apiVersion ∧ document.Says kindField kind ∧
    LastFor calls apiVersion kind type

/-- What a document is taken for is what it says, and nothing else. -/
structure IdentifiedBySaying (calls : List Registration) (document : Json) : Prop where
  known : ∀ type, (registered calls).identify document = .ok type ↔ Names calls document type
  /-- A document that names no type is reported with what it says, empty texts where that is
  nothing. -/
  unknown : (∀ type, ¬ Names calls document type) → ∀ apiVersion kind,
    document.Quotes apiVersionField apiVersion → document.Quotes kindField kind →
      (registered calls).identify document = .error (.unrecognized apiVersion kind)
  carried : ∀ field ∈ [apiVersionField, kindField], (∀ text, ¬ document.Says field text) →
    ∀ apiVersion kind, document.Quotes apiVersionField apiVersion → document.Quotes kindField kind →
      ∀ (schema : Schema) (marker : String), schema.types = registered calls →
        Decompose.decomposeDocument schema marker document =
          ⟨Outline.passthrough document, [], [.unrecognized apiVersion kind]⟩

theorem identifiedBySaying_of_nonempty {calls : List Registration}
    (h : ∀ call ∈ calls, call.apiVersion ≠ "" ∧ call.kind ≠ "") (document : Json) :
    IdentifiedBySaying calls document := by
  have hnames {apiVersion kind : String} (hversion : document.Quotes apiVersionField apiVersion)
      (hkind : document.Quotes kindField kind) (type : TypeName) :
      LastFor calls apiVersion kind type ↔ Names calls document type := by
    constructor
    · intro hlast
      obtain ⟨call, hcall, rfl, rfl⟩ := hlast.exists_call
      obtain ⟨hversionNe, hkindNe⟩ := h call hcall
      exact ⟨_, _, says_of_quotes hversion hversionNe, says_of_quotes hkind hkindNe, hlast⟩
    · rintro ⟨_, _, hsaid, hsaid', hlast⟩
      rw [quotes_iff] at hversion hkind
      rwa [← hversion, ← hkind, textField_eq_of_said hsaid, textField_eq_of_said hsaid']
  have hquoted (field : String) := (quotes_iff document field _).mpr rfl
  have hunknown (hnone : ∀ type, ¬ Names calls document type) {apiVersion kind : String}
      (hversion : document.Quotes apiVersionField apiVersion)
      (hkind : document.Quotes kindField kind) :=
    identify_eq_error hversion hkind fun type hlast ↦
      hnone type ((hnames hversion hkind type).mp hlast)
  constructor
  · intro type
    rw [identify_eq_ok_iff (hquoted _) (hquoted _), hnames (hquoted _) (hquoted _)]
  · exact fun hnone _ _ hversion hkind ↦ hunknown hnone hversion hkind
  · intro field hfield hnothing apiVersion kind hversion hkind schema marker hschema
    have hnone : ∀ type, ¬ Names calls document type := by
      rintro type ⟨_, _, hsaid, hsaid', -⟩
      rcases List.mem_cons.mp hfield with rfl | hfield
      · exact hnothing _ hsaid
      · cases List.mem_singleton.mp hfield
        exact hnothing _ hsaid'
    rw [Decompose.decomposeDocument, hschema, hunknown hnone hversion hkind]

/-- One registration with an empty text takes a document without the field for its type. -/
theorem nonempty_of_identifiedBySaying {calls : List Registration}
    (h : ∀ document, IdentifiedBySaying calls document) :
    ∀ call ∈ calls, call.apiVersion ≠ "" ∧ call.kind ≠ "" := by
  intro call hcall
  obtain ⟨type, hlast⟩ := exists_lastFor hcall
  have hboth (document : Json) (hversion : textField document apiVersionField = call.apiVersion)
      (hkind : textField document kindField = call.kind) :
      (∃ text, document.Says apiVersionField text) ∧ ∃ text, document.Says kindField text := by
    have hok := (identify_eq_ok_iff ((quotes_iff ..).mpr hversion) ((quotes_iff ..).mpr hkind)
      type).mpr hlast
    obtain ⟨_, _, hsaid, hsaid', -⟩ := ((h document).known type).mp hok
    exact ⟨⟨_, hsaid⟩, ⟨_, hsaid'⟩⟩
  constructor
  · intro hempty
    obtain ⟨⟨_, hsaid⟩, -⟩ :=
      hboth (object [(kindField, string call.kind)]) (hempty ▸ rfl) rfl
    exact not_says_of_get?_eq_none rfl _ hsaid
  · intro hempty
    obtain ⟨-, ⟨_, hsaid⟩⟩ :=
      hboth (object [(apiVersionField, string call.apiVersion)]) rfl (hempty ▸ rfl)
    exact not_says_of_get?_eq_none rfl _ hsaid

/-- After any registrations a document is looked up under the texts that stand for its two fields,
and the last registration of that pair decides. Every document is identified by what it says exactly
when no registration has an empty text in its pair. -/
theorem registered_identifies (calls : List Registration) :
    (∀ document : Json, ∃ apiVersion kind, document.Quotes apiVersionField apiVersion ∧
      document.Quotes kindField kind ∧
      (∀ type, (registered calls).identify document = .ok type ↔
        LastFor calls apiVersion kind type) ∧
      ((∀ type, ¬ LastFor calls apiVersion kind type) →
        (registered calls).identify document = .error (.unrecognized apiVersion kind))) ∧
    ((∀ document, IdentifiedBySaying calls document) ↔
      ∀ call ∈ calls, call.apiVersion ≠ "" ∧ call.kind ≠ "") := by
  constructor
  · intro document
    have hversion := (quotes_iff document apiVersionField _).mpr rfl
    have hkind := (quotes_iff document kindField _).mpr rfl
    exact ⟨_, _, hversion, hkind, identify_eq_ok_iff hversion hkind,
      identify_eq_error hversion hkind⟩
  · exact ⟨nonempty_of_identifiedBySaying, identifiedBySaying_of_nonempty⟩

/-- A document that has no API version is taken for an instance of the type that is registered for
its kind and the empty API version. -/
theorem identify_without_apiVersion :
    let calls : List Registration := [⟨"", "Pod", ⟨"core.Pod"⟩⟩]
    let document : Json := .object [("kind", .string "Pod")]
    (∀ text, ¬ document.Says apiVersionField text) ∧
      (registered calls).identify document = .ok ⟨"core.Pod"⟩ ∧
      (Decompose.decomposeDocument ⟨⟨[], []⟩, [], registered calls⟩ "@" document).root =
        .element ⟨"core.Pod"⟩ [("kind", .string "Pod")] none [] := by
  intro calls document
  exact ⟨not_says_of_get?_eq_none rfl, rfl, rfl⟩

end TypeIndex

end ManifestTree
