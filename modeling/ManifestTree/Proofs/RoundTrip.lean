import ManifestTree.Proofs.DeclaredRelations
import ManifestTree.Proofs.Overlaying
import ManifestTree.Proofs.Properties
import ManifestTree.Proofs.Restoring
import ManifestTree.Proofs.Visits

/-!
# Decomposed documents compose to themselves

Composing the elements that documents decompose into gives the documents back, up to the order of
object keys and with every array in its order. The values that relations take out return as the
elements below, in the order in which they were taken; what is left returns through the properties;
fields that no property can stand for return as literals. Each of the three puts its values at paths
apart from the others, so that none gets in another one's way. The schema must not make a relation
reach around an earlier one, nor let the marker of hoisted properties stand in front of a key that a
relation or a spec key uses.
-/

namespace ManifestTree

open Json Decompose Compose Weaving

/-! ## Schemas -/

/-- What a schema must observe so that composing undoes decomposing. -/
structure Schema.Reversible (schema : Schema) (marker : String) : Prop where
  keys : ∀ type, ∀ relation ∈ schema.relations.under type, relation.path.keysOnly
  /-- No relation's path is a proper prefix of the path of one declared before it. -/
  ordered : ∀ type, (schema.relations.under type).Pairwise fun earlier later ↦
    NoProperPrefix later.path.steps earlier.path.steps
  /-- Where properties are hoisted, the spec key does not begin with the marker. -/
  unmarkedSpec : ∀ type key, (schema.rulesOf type).specKey = some key →
    (schema.rulesOf type).hoisted? marker key = none
  /-- Where properties are hoisted, no relation's first key begins with the marker. -/
  unmarkedPaths : ∀ type, ∀ relation ∈ schema.relations.under type, ∀ name rest,
    relation.path.steps = .key name :: rest → (schema.rulesOf type).hoisted? marker name = none
  passthrough : schema.rules.get? TypeName.passthrough = none

/-- What a schema must observe so that an element composes back to the object it was decomposed
from. Relations to arrays may lead to any paths, and relations along a single key may have any
key. -/
structure Schema.Recomposable (schema : Schema) (marker : String) : Prop where
  keys : ∀ type, ∀ relation ∈ schema.relations.under type, relation.path.keysOnly
  /-- No path of a relation to a single value is a proper prefix of the path of one declared
  before it. -/
  ordered : ∀ type, (schema.relations.under type).Pairwise fun earlier later ↦
    later.isMany = false → NoProperPrefix later.path.steps earlier.path.steps
  /-- Where properties are hoisted, the spec key does not begin with the marker. -/
  unmarkedSpec : ∀ type key, (schema.rulesOf type).specKey = some key →
    (schema.rulesOf type).hoisted? marker key = none
  /-- Where properties are hoisted, no relation leads inside a key that begins with the marker. -/
  unmarkedPaths : ∀ type, ∀ relation ∈ schema.relations.under type, ∀ name next rest,
    relation.path.steps = .key name :: next :: rest →
      (schema.rulesOf type).hoisted? marker name = none

theorem Schema.Reversible.recomposable {schema : Schema} {marker : String}
    (h : schema.Reversible marker) : schema.Recomposable marker where
  keys := h.keys
  ordered := by
    intro type
    apply (h.ordered type).imp
    intro earlier later horder _
    exact horder
  unmarkedSpec := h.unmarkedSpec
  unmarkedPaths := fun type relation hmem name next rest hpath ↦
    h.unmarkedPaths type relation hmem name (next :: rest) hpath

/-- The tag that decomposing gives to an element selects the relation it came from. -/
theorem Relations.resolve_selector {declared : List Relation} {relations : Relations}
    (h : ofList declared = .ok relations) {parent : TypeName} {relation : Relation}
    (hmem : relation ∈ relations.under parent) :
    relations.resolve parent relation.child (relations.selector relation) = .ok relation := by
  rw [under_ofList h, List.mem_filter, decide_eq_true_eq] at hmem
  obtain ⟨hnormalized, rfl⟩ := hmem
  have hpair : relation ∈ ofPair declared relation.parent relation.child := by
    simp [ofPair, hnormalized]
  rw [resolve_eq_ok_iff h]
  rcases get?_choices_ofList h relation.parent relation.child with
    ⟨hnil, -⟩ | ⟨-, choice, hchoice, hanswers⟩
  · rw [hnil] at hpair
    cases hpair
  · unfold selector
    rw [hchoice]
    cases choice with
    | tagged untagged byTag => exact ⟨hpair, Or.inl rfl⟩
    | only single =>
      obtain ⟨-, hnone⟩ := (hanswers.select_iff none single).mp rfl
      exact ⟨hpair, Or.inr (hnone.resolve_left (by simp))⟩

/-! ## Children -/

namespace Decompose

theorem elements_fst (nested : Nested) (type : TypeName) (tag : Option String)
    (objects : List Members) :
    (elements nested type tag objects).1 =
      objects.map fun members ↦ (nested type members).1.withTag tag := by
  induction objects with
  | nil => rfl
  | cons members rest ih =>
    rw [List.map_cons, ← ih]
    rfl

theorem Taking.Proper.of_single {taking : Taking} (h : taking.Proper)
    (hsingle : taking.relation.isMany = false) :
    ∃ members, taking.value = object members ∧ objectsOf taking.value = [members] := by
  have hformed := h.formed
  unfold problem? at hformed
  rw [hsingle] at hformed
  cases hvalue : taking.value with
  | object members => exact ⟨members, rfl, rfl⟩
  | _ =>
    rw [hvalue] at hformed
    cases hformed

theorem objectsOf_array {items : List Json} (h : items.all isObject) :
    items = (objectsOf (array items)).map object := by
  induction items with
  | nil => rfl
  | cons item rest ih =>
    rw [List.all_cons, Bool.and_eq_true] at h
    cases item with
    | object members => exact congrArg (object members :: ·) (ih h.2)
    | _ => cases h.1

theorem Taking.Proper.of_many {taking : Taking} (h : taking.Proper)
    (hmany : taking.relation.isMany) :
    objectsOf taking.value ≠ [] ∧
      taking.value = array ((objectsOf taking.value).map object) := by
  have hformed := h.formed
  have hfilled := h.filled
  unfold problem? at hformed
  rw [hmany] at hformed
  cases hvalue : taking.value with
  | array items =>
    rw [hvalue] at hformed hfilled
    have hall : items.all isObject := by
      by_contra hnot
      simp [hnot] at hformed
    have hitems := objectsOf_array hall
    refine ⟨fun hempty ↦ ?_, congrArg array hitems⟩
    rw [hempty, List.map_nil] at hitems
    rw [hitems] at hfilled
    cases hfilled
  | _ =>
    rw [hvalue] at hformed
    cases hformed

/-- The children made of a value taken out restore it. -/
theorem restores_taking {context : Context} {declared : List Relation} {nested : Nested}
    {type : TypeName} {enclosing : List TypeName} {taking : Taking} {whole : Json}
    (hrelations : Relations.ofList declared = .ok context.schema.relations)
    (hmem : taking.relation ∈ context.schema.relations.under type) (hproper : taking.Proper)
    (hholds : HoldsAt taking.path taking.value whole)
    (hnested : ∀ type members, (object members).WellFormed →
      (nested type members).1.Rebuilds context type members) :
    Restores context (enclosing ++ [type]) whole taking.path
      (Outline.toNodes (elements nested taking.relation.child
        (context.schema.relations.selector taking.relation) (objectsOf taking.value)).1) := by
  have hlocate : locate context.schema (enclosing ++ [type]) taking.relation.child
      (context.schema.relations.selector taking.relation) = .ok (some taking.relation) := by
    unfold locate
    rw [List.getLast?_concat]
    dsimp only
    rw [Relations.resolve_selector hrelations hmem]
    rfl
  obtain ⟨names, hnames⟩ := exists_keys_of_keysOnly hproper.keys
  have hpath : taking.path = names.map Step.key := by
    rw [Taking.path, hnames]
    rfl
  rw [elements_fst, Outline.toNodes_eq_map, List.map_map]
  rw [hpath] at hholds ⊢
  cases hmany : taking.relation.isMany with
  | false =>
    obtain ⟨members, hvalue, hobjects⟩ := hproper.of_single hmany
    have hwf := hproper.wellFormed
    rw [hvalue] at hholds hwf
    rw [hobjects]
    exact restores_element hnames hmany hlocate (hnested _ members hwf) hholds
  | true =>
    obtain ⟨hne, hvalue⟩ := hproper.of_many hmany
    have hwf := hproper.wellFormed
    rw [hvalue] at hwf
    have hempty : names ≠ [] := by
      rintro rfl
      exact hproper.nonempty hpath
    refine restores_elements hnames hmany hempty hlocate (fun members ↦ (nested _ members).1) hne
      (fun members hmembers ↦ hnested _ members ?_) (hvalue ▸ hholds)
    exact itemsWellFormed_iff.mp hwf _ (List.mem_map_of_mem hmembers)

/-! ## What is left -/

variable {context : Context} {type : TypeName}

/-- The fields that are written at their own key because no property can stand for them. -/
def literalJobs (verbatim : Members) : List (List Step × List Outline) :=
  verbatim.map fun (name, value) ↦
    ([.key name], [Outline.literal (.ofKeys [name]) (some value) false []])

theorem mem_literalJobs {verbatim : Members} {job : List Step × List Outline}
    (h : job ∈ literalJobs verbatim) : ∃ name value, (name, value) ∈ verbatim ∧
      job = ([.key name], [Outline.literal (.ofKeys [name]) (some value) false []]) := by
  obtain ⟨⟨name, value⟩, hmem, rfl⟩ := List.mem_map.mp h
  exact ⟨name, value, hmem, rfl⟩

theorem apart_keys {name other : String} (h : name ≠ other) (rest more : List Step) :
    Apart (.key name :: rest) (.key other :: more) := by
  refine ⟨fun hstart ↦ h ?_, fun hstart ↦ h.symm ?_⟩
  · exact Step.key.inj (List.cons_prefix_cons.mp hstart).1
  · exact Step.key.inj (List.cons_prefix_cons.mp hstart).1

theorem apart_literalJobs {verbatim : Members} (h : (verbatim.map Prod.fst).Nodup) :
    ((literalJobs verbatim).map Prod.fst).Pairwise Apart := by
  have hpaths : (literalJobs verbatim).map Prod.fst =
      (verbatim.map Prod.fst).map fun name ↦ [Step.key name] := by
    simp [literalJobs, Function.comp_def]
  rw [hpaths, List.pairwise_map]
  exact h.imp fun hne ↦ apart_keys hne [] []

theorem flatMap_literalJobs (verbatim : Members) : (literalJobs verbatim).flatMap Prod.snd =
    verbatim.map fun (name, value) ↦
      Outline.literal (.ofKeys [name]) (some value) false [] := by
  induction verbatim with
  | nil => rfl
  | cons entry rest ih => exact congrArg (_ :: ·) ih

def nodeJobs (jobs : List (List Step × List Outline)) : List (List Step × List Node) :=
  jobs.map fun job ↦ (job.1, Outline.toNodes job.2)

theorem map_fst_nodeJobs (jobs : List (List Step × List Outline)) :
    (nodeJobs jobs).map Prod.fst = jobs.map Prod.fst := by
  simp [nodeJobs, Function.comp_def]

theorem flatMap_nodeJobs (jobs : List (List Step × List Outline)) :
    (nodeJobs jobs).flatMap Prod.snd = Outline.toNodes (jobs.flatMap Prod.snd) := by
  simp [nodeJobs, Outline.toNodes_eq_map, List.flatMap_map, List.map_flatMap]

/-- The fields of what is left that would be hoisted if they were properties. -/
def setAside (context : Context) (type : TypeName) (left : Members) : Members :=
  left.filter ((context.schema.rulesOf type).isMarked context.marker)

theorem mem_setAside {left : Members} {name : String} {value : Json} :
    (name, value) ∈ setAside context type left ↔ (name, value) ∈ left ∧
      ((context.schema.rulesOf type).hoisted? context.marker name).isSome :=
  List.mem_filter

/-- What decomposing an object has found: children for the paths that are missing in what is
left. -/
structure Found (context : Context) (type : TypeName) (members left : Members)
    (jobs : List (List Step × List Outline)) : Prop where
  wellFormed : (object left).WellFormed
  lacks : Lacks (jobs.map Prod.fst) (object left) (object members)
  apart : (jobs.map Prod.fst).Pairwise Apart
  /-- They begin with a key, one without marker if they lead inside it. -/
  unmarked : ∀ job ∈ jobs, ∃ name rest, job.1 = .key name :: rest ∧
    (rest ≠ [] → (context.schema.rulesOf type).hoisted? context.marker name = none)
  restores : ∀ enclosing, ∀ job ∈ jobs,
    Restores context (enclosing ++ [type]) (object members) job.1 (Outline.toNodes job.2)

namespace Found

variable {members left : Members} {jobs : List (List Step × List Outline)}

/-- A path that was found is apart from the key of a field that is set aside: it leads to another
key, unless it ends there, and then nothing is left at the key. -/
theorem apart_literal (h : Found context type members left jobs) {name : String} {value : Json}
    (hfield : (name, value) ∈ setAside context type left) {path : List Step}
    (hpath : path ∈ jobs.map Prod.fst) : Apart path [.key name] := by
  obtain ⟨hleft, hmarked⟩ := mem_setAside.mp hfield
  have hgone := h.lacks.gone path hpath
  obtain ⟨job, hjob, rfl⟩ := List.mem_map.mp hpath
  obtain ⟨first, rest, heq, hfirst⟩ := h.unmarked job hjob
  rw [heq] at hgone ⊢
  refine apart_keys ?_ rest []
  rintro rfl
  cases rest with
  | nil =>
    have hget : left.get? first = some value :=
      Association.get?_eq_some_of_mem h.wellFormed.nodup hleft
    rw [getSteps?_key, hget, Option.bind_some, getSteps?_nil] at hgone
    cases hgone
  | cons next more =>
    rw [hfirst (by simp)] at hmarked
    cases hmarked

theorem restores_literals (h : Found context type members left jobs) (enclosing : List TypeName) :
    ∀ job ∈ literalJobs (setAside context type left),
      Restores context (enclosing ++ [type]) (object members) job.1 (Outline.toNodes job.2) := by
  intro job hjob
  obtain ⟨name, value, hmem, rfl⟩ := mem_literalJobs hjob
  obtain ⟨hleft, hmarked⟩ := mem_setAside.mp hmem
  have hget : left.get? name = some value :=
    Association.get?_eq_some_of_mem h.wellFormed.nodup hleft
  have hsteps : getSteps? [.key name] (object left) = some value := by
    rw [getSteps?_key, hget, Option.bind_some, getSteps?_nil]
  apply restores_literal (h.wellFormed.member hget)
  exact h.lacks.holdsAt hsteps (by simp) fun path hpath ↦ h.apart_literal hmem hpath

/-- The fields that the properties expand into lack the children and the literals. -/
theorem lacks_fields (h : Found context type members left jobs) {fields : Members}
    (hfields : ∀ key, fields.get? key =
      if ((context.schema.rulesOf type).hoisted? context.marker key).isSome then none
      else left.get? key) :
    Lacks ((jobs ++ literalJobs (setAside context type left)).map Prod.fst) (object fields)
      (object members) where
  gone := by
    intro path hpath
    rw [List.map_append, List.mem_append] at hpath
    rcases hpath with hpath | hpath
    · obtain ⟨job, hjob, heq⟩ := List.mem_map.mp hpath
      obtain ⟨name, rest, hname, -⟩ := h.unmarked job hjob
      have hgone := h.lacks.gone path hpath
      rw [← heq, hname, getSteps?_key] at hgone ⊢
      rw [hfields]
      split
      · rfl
      · exact hgone
    · obtain ⟨job, hjob, rfl⟩ := List.mem_map.mp hpath
      obtain ⟨name, value, hmem, rfl⟩ := mem_literalJobs hjob
      rw [getSteps?_key, hfields, if_pos (mem_setAside.mp hmem).2]
      rfl
  kept := by
    intro steps hsteps hnone
    have hjobs : ∀ path ∈ jobs.map Prod.fst, ¬ path <+: steps := fun path hmem ↦
      hnone path (by simp only [List.map_append, List.mem_append]; exact Or.inl hmem)
    rw [← h.lacks.kept steps hsteps hjobs]
    cases steps with
    | nil => exact absurd rfl hsteps
    | cons step rest =>
      cases step with
      | index position => rfl
      | key name =>
        rw [leaf?_key, leaf?_key, hfields]
        split
        · next hmarked =>
          cases hget : left.get? name with
          | none => rfl
          | some value =>
            have hmem : (name, value) ∈ setAside context type left :=
              mem_setAside.mpr ⟨Association.mem_of_get?_eq_some hget, hmarked⟩
            refine absurd (List.prefix_cons_inj _ |>.mpr List.nil_prefix) (hnone [.key name] ?_)
            rw [List.map_append, List.mem_append]
            refine Or.inr (List.mem_map.mpr ⟨_, List.mem_map.mpr ⟨_, hmem, rfl⟩, rfl⟩)
        · rfl

theorem apart_all (h : Found context type members left jobs) :
    ((jobs ++ literalJobs (setAside context type left)).map Prod.fst).Pairwise Apart := by
  have hkeys : ((setAside context type left).map Prod.fst).Nodup :=
    h.wellFormed.nodup.sublist (List.filter_sublist.map _)
  rw [List.map_append, List.pairwise_append]
  refine ⟨h.apart, apart_literalJobs hkeys, fun path hpath other hother ↦ ?_⟩
  obtain ⟨job, hjob, rfl⟩ := List.mem_map.mp hother
  obtain ⟨name, value, hmem, rfl⟩ := mem_literalJobs hjob
  exact h.apart_literal hmem hpath

theorem restores_all (h : Found context type members left jobs) (enclosing : List TypeName) :
    ∀ job ∈ nodeJobs (jobs ++ literalJobs (setAside context type left)),
      Restores context (enclosing ++ [type]) (object members) job.1 job.2 := by
  intro job hjob
  obtain ⟨original, horiginal, rfl⟩ := List.mem_map.mp hjob
  rcases List.mem_append.mp horiginal with hfound | hliteral
  · exact h.restores enclosing original hfound
  · exact h.restores_literals enclosing original hliteral

/-- The element of what was found rebuilds the object. -/
theorem rebuilds (h : Found context type members left jobs)
    (hspec : ∀ key, (context.schema.rulesOf type).specKey = some key →
      (context.schema.rulesOf type).hoisted? context.marker key = none) :
    (finish context.schema context.marker type (object left) (jobs.flatMap Prod.snd)).Rebuilds
      context type members := by
  have hmetadata : ∀ inner, left.get? FieldRules.metadataKey = some (object inner) →
      (inner.map Prod.fst).Nodup := fun inner hget ↦ (h.wellFormed.member hget).nodup
  obtain ⟨fields, hexpand, hkeys, hfields⟩ :=
    FieldRules.expand_contract h.wellFormed.nodup hmetadata hspec
  have hwf : (object fields).WellFormed := by
    refine ⟨hkeys, membersWellFormed_iff.mpr fun entry hentry ↦ ?_⟩
    have hget := Association.get?_eq_some_of_mem hkeys hentry
    rw [← Members.get?, hfields] at hget
    split at hget
    · cases hget
    · exact h.wellFormed.member hget
  have hverbatim : ((context.schema.rulesOf type).contract context.marker
      (object left).members).verbatim = setAside context type left :=
    congrArg FieldRules.Contracted.verbatim
      (FieldRules.contract_eq h.wellFormed.nodup hmetadata hspec)
  refine ⟨_, _, fields, rfl, hexpand, fun enclosing log ↦ ?_⟩
  rw [hverbatim, ← flatMap_literalJobs, ← List.flatMap_append, ← flatMap_nodeJobs]
  have hlacks := h.lacks_fields hfields
  have hapart := h.apart_all
  rw [← map_fst_nodeJobs] at hlacks hapart
  obtain ⟨after, hexec, hafter, hnothing⟩ :=
    exec_weaveAll_of_restores log (h.restores_all enclosing) hapart hwf hlacks
  exact ⟨after, hexec, hafter, hnothing.sameLeaves⟩

end Found

/-! ## Elements -/

/-- What the visits leave over, told by the children that the values taken become. -/
theorem found_of_leftOver {declared : List Relation} {nested : Nested} {members left : Members}
    {takings : List Taking} (hrelations : Relations.ofList declared = .ok context.schema.relations)
    (hschema : context.schema.Recomposable context.marker)
    (hnested : ∀ type members, (object members).WellFormed →
      (nested type members).1.Rebuilds context type members)
    (h : LeftOver (context.schema.relations.under type) [] (object members) takings left) :
    Found context type members left (takings.map fun taking ↦ (taking.path,
      (elements nested taking.relation.child (context.schema.relations.selector taking.relation)
        (objectsOf taking.value)).1)) where
  wellFormed := h.wellFormed
  lacks := by simpa [Function.comp_def] using h.lacks
  apart := by simpa [Function.comp_def] using h.apart
  unmarked := by
    intro job hjob
    obtain ⟨taking, htaking, rfl⟩ := List.mem_map.mp hjob
    obtain ⟨hmem, hproper, -⟩ := h.proper taking htaking
    obtain ⟨names, hnames⟩ := exists_keys_of_keysOnly hproper.keys
    cases names with
    | nil => exact absurd (congrArg FieldPath.steps hnames) hproper.nonempty
    | cons name rest =>
      have hpath : taking.relation.path.steps = .key name :: rest.map Step.key :=
        congrArg FieldPath.steps hnames
      refine ⟨name, rest.map Step.key, hpath, fun hrest ↦ ?_⟩
      obtain ⟨next, more, heq⟩ := List.exists_cons_of_ne_nil hrest
      rw [heq] at hpath
      exact hschema.unmarkedPaths type taking.relation hmem name next more hpath
  restores := by
    intro enclosing job hjob
    obtain ⟨taking, htaking, rfl⟩ := List.mem_map.mp hjob
    obtain ⟨hmem, hproper, hholds⟩ := h.proper taking htaking
    exact restores_taking hrelations hmem hproper hholds hnested

/-- The element of an object rebuilds it, whatever depth decomposing was given. -/
theorem element_rebuilds {declared : List Relation}
    (hrelations : Relations.ofList declared = .ok context.schema.relations)
    (hschema : context.schema.Recomposable context.marker) (depth : Nat) (type : TypeName)
    (members : Members) (hwf : (object members).WellFormed) :
    (element context.schema context.marker depth type members).1.Rebuilds context type members := by
  induction depth generalizing type members with
  | zero =>
    have hfound : Found context type members members [] :=
      { wellFormed := hwf
        lacks := Lacks.nothing (object members)
        apart := .nil
        unmarked := by simp
        restores := by simp }
    exact hfound.rebuilds (hschema.unmarkedSpec type)
  | succ depth ih =>
    obtain ⟨takings, left, findings, heq, hleft⟩ :=
      visitAll_leftOver context.schema.relations (element context.schema context.marker depth)
        hwf (Lacks.nothing (object members)) .nil (by simp) (hschema.keys type)
        (hschema.ordered type) (by simp)
    rw [element, heq]
    have hrebuilds :=
      (found_of_leftOver hrelations hschema ih hleft).rebuilds (hschema.unmarkedSpec type)
    rw [List.flatMap_map] at hrebuilds
    exact hrebuilds

/-- A document that is carried as it is rebuilds itself. -/
theorem passthrough_rebuilds (hrules : context.schema.rules.get? TypeName.passthrough = none)
    {members : Members} (hwf : (object members).WellFormed) :
    (Outline.passthrough (object members)).Rebuilds context TypeName.passthrough members := by
  have hplain : context.schema.rulesOf TypeName.passthrough = FieldRules.plain := by
    rw [Schema.rulesOf, hrules]
    rfl
  have hnodup : (([] ++ members).map Prod.fst).Nodup := hwf.nodup
  have hdistribute : FieldRules.plain.distribute context.marker [] [] members =
      .ok ([], [] ++ members) := FieldRules.distribute_plain rfl hnodup fun _ _ ↦ rfl
  have hexpand : FieldRules.plain.expand context.marker members = .ok members := by
    rw [FieldRules.expand, hdistribute]
    rfl
  refine ⟨members, [], members, rfl, ?_, fun enclosing log ↦ ?_⟩
  · rw [hplain, hexpand]
  · exact ⟨members, rfl, hwf, fun steps ↦ rfl⟩

/-! ## Documents -/

theorem decomposeDocument_rebuilds {declared : List Relation}
    (hrelations : Relations.ofList declared = .ok context.schema.relations)
    (hschema : context.schema.Reversible context.marker) {members : Members}
    (hwf : (object members).WellFormed) :
    ∃ type, (decomposeDocument context.schema context.marker (object members)).root.Rebuilds
      context type members := by
  unfold decomposeDocument
  cases context.schema.types.identify (object members) with
  | error unknown => exact ⟨TypeName.passthrough, passthrough_rebuilds hschema.passthrough hwf⟩
  | ok type =>
    exact ⟨type, element_rebuilds hrelations hschema.recomposable (object members).height type
      members hwf⟩

end Decompose

namespace Compose

/-- An object without a repeated key is laid over nothing as it is. -/
theorem mergeAt_null {members : Members} (h : (object members).WellFormed) :
    Json.null.mergeAt .root (object members) = (.ok (), object members) := by
  calc
    Json.null.mergeAt .root (object members) = (.ok (), object (overlayMembers [] members)) := rfl
    _ = (.ok (), object members) := by rw [overlayMembers_nil h.nodup]

/-- At the top of a tree, the element is the document that it rebuilds. -/
theorem exec_collect_of_rebuilds {context : Context} {type : TypeName} {members : Members}
    {outline : Outline} (h : outline.Rebuilds context type members) (log : PassLog) :
    ∃ value : Members, exec (collect context outline.toNode) log = (.ok [object value], log) ∧
      (object value).WellFormed ∧ (object value).SameLeaves (object members) := by
  obtain ⟨value, hwf, hsame, hweave⟩ :=
    h.exec_weave (show locate context.schema [] type none = .ok none from rfl) log
  obtain ⟨props, children, fields, rfl, -, -⟩ := h
  refine ⟨value, ?_, hwf, hsame⟩
  have hwritten : exec (written (Json.null.mergeAt .root (object value))) log =
      (.ok ((), object value), log) := by
    rw [exec_written, mergeAt_null hwf]
    rfl
  have hnode : exec (weave context [] .root .null
      (.element type props none (Outline.toNodes children))) log = (.ok (object value), log) :=
    (hweave .root .null).trans (exec_bind_of_ok hwritten _)
  have hdocument : exec (documentOf context (.element type props none (Outline.toNodes children)))
      log = (.ok (object value), log) := by
    rw [documentOf, exec_bind_of_ok hnode]
    rfl
  rw [Outline.toNode, collect, exec_bind_of_ok hdocument]
  rfl

/-- The documents of decomposed documents, one for each. -/
theorem exec_collectAll_decomposed {context : Context} {declared : List Relation}
    (hrelations : Relations.ofList declared = .ok context.schema.relations)
    (hschema : context.schema.Reversible context.marker) {documents : List Json}
    (hdocuments : ∀ document ∈ documents, document.isObject ∧ document.WellFormed)
    (log : PassLog) :
    ∃ composed, exec (collectAll context (Outline.toNodes (documents.map fun document ↦
        (decomposeDocument context.schema context.marker document).root))) log =
          (.ok composed, log) ∧
      List.Forall₂ Alike composed documents := by
  induction documents with
  | nil => exact ⟨[], rfl, .nil⟩
  | cons document rest ih =>
    obtain ⟨hobject, hwf⟩ := hdocuments document List.mem_cons_self
    obtain ⟨composed, hrest, halike⟩ := ih fun other hmem ↦
      hdocuments other (List.mem_cons_of_mem _ hmem)
    cases document with
    | object members =>
      obtain ⟨type, hrebuilds⟩ := decomposeDocument_rebuilds hrelations hschema hwf
      obtain ⟨value, hfirst, hvalue, hsame⟩ := exec_collect_of_rebuilds hrebuilds log
      refine ⟨object value :: composed, ?_, .cons (alike_of_sameLeaves _ hvalue hwf hsame) halike⟩
      rw [List.map_cons, Outline.toNodes, collectAll, exec_bind_of_ok hfirst,
        exec_bind_of_ok hrest]
      rfl
    | _ => cases hobject

/-- Composing the trees of decomposed documents succeeds and gives the documents back in their
order, each up to the order of its object keys. -/
theorem compose_decomposed {declared : List Relation} {schema : Schema} {marker : String}
    (hrelations : Relations.ofList declared = .ok schema.relations)
    (hschema : schema.Reversible marker) {documents : List Json}
    (hdocuments : ∀ document ∈ documents, document.isObject ∧ document.WellFormed)
    (supplies : Supplies) :
    ∃ composed, compose ⟨schema, marker, supplies⟩ (Outline.fragment (documents.map fun document ↦
        (decomposeDocument schema marker document).root)).toNode = .ok composed ∧
      List.Forall₂ Alike composed documents := by
  let context : Context := ⟨schema, marker, supplies⟩
  obtain ⟨composed, hexec, halike⟩ := exec_collectAll_decomposed
    (show Relations.ofList declared = .ok context.schema.relations from hrelations) hschema
    hdocuments PassLog.empty
  refine ⟨composed, ?_, halike⟩
  have hpass : pass context (Outline.fragment (documents.map fun document ↦
      (decomposeDocument schema marker document).root)).toNode = (.ok composed, PassLog.empty) :=
    hexec
  rw [compose, hpass]
  rfl

/-- A document with items, hoisted metadata and a field behind the marker, and an unknown one. -/
theorem compose_decomposed_pod :
    let pod : TypeName := ⟨"Pod"⟩
    let container : Relation := ⟨⟨"Container"⟩, pod, .ofKeys ["spec", "containers"], true, none⟩
    let relations : Relations :=
      ⟨[(pod, [container])], [((pod, container.child), .only container)]⟩
    let types : TypeIndex := TypeIndex.empty.register "v1" "Pod" pod
    let schema : Schema := ⟨relations, [(pod, ⟨true, some "body"⟩)], types⟩
    let known : Json := .object [("@note", .null), ("apiVersion", .string "v1"),
      ("kind", .string "Pod"), ("metadata", .object [("name", .string "web")]),
      ("spec", .object [("containers", .array [.object [("image", .string "nginx")]])])]
    let unknown : Json := .object [("items", .array [.null, .object []])]
    let tree : Outline := .fragment ([known, unknown].map fun document ↦
      (decomposeDocument schema "@" document).root)
    schema.Reversible "@" ∧
      ∃ composed, compose ⟨schema, "@", []⟩ tree.toNode = .ok composed ∧
        List.Forall₂ Alike composed [known, unknown] := by
  intro pod container relations types schema known unknown tree
  have hrelations : Relations.ofList [container] = .ok schema.relations := rfl
  have hunder (type : TypeName) : ∀ relation ∈ schema.relations.under type,
      relation = container := by
    intro relation hmem
    by_cases htype : pod = type
    · subst htype
      exact List.mem_singleton.mp hmem
    · simp [schema, relations, Relations.under, Association.get?_cons_of_ne htype] at hmem
  have hrules (type : TypeName) : schema.rulesOf type = FieldRules.plain ∨
      schema.rulesOf type = ⟨true, some "body"⟩ := by
    by_cases htype : pod = type
    · subst htype
      exact Or.inr rfl
    · left
      simp [schema, Schema.rulesOf, Association.get?_cons_of_ne htype]
  have hreversible : schema.Reversible "@" :=
    { keys := fun type relation hmem ↦ hunder type relation hmem ▸ rfl
      ordered := by
        intro type
        by_cases htype : pod = type
        · subst htype
          exact List.pairwise_singleton _ _
        · simp [schema, relations, Relations.under, Association.get?_cons_of_ne htype]
      unmarkedSpec := by
        intro type key hkey
        rcases hrules type with hplain | hbody
        · rw [hplain] at hkey
          cases hkey
        · rw [hbody] at hkey ⊢
          cases hkey
          decide
      unmarkedPaths := by
        intro type relation hmem name rest hpath
        rw [hunder type relation hmem] at hpath
        cases hpath
        rcases hrules type with hplain | hbody
        · rw [hplain]
          rfl
        · rw [hbody]
          decide
      passthrough := rfl }
  refine ⟨hreversible, compose_decomposed hrelations hreversible ?_ []⟩
  intro document hmem
  rcases List.mem_pair.mp hmem with rfl | rfl <;>
    simp [known, unknown, isObject, Json.WellFormed, MembersWellFormed, ItemsWellFormed]

end Compose
end ManifestTree
