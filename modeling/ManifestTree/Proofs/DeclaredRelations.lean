import ManifestTree.Relations
import ManifestTree.Proofs.Association
import Mathlib.Data.List.Perm.Basic

/-!
# Grouped relations against the list of declared ones

`Relations.ofList` sorts the declared relations into groups once; a reader of a schema would scan
the declared list. This module shows that both give the same answers: which lists are accepted, what
stands under a parent, which relation a tag selects and which labels a failure offers. The order of
the groups among each other is of no account, and so is the choice between several duplicates that
could be reported.
-/

namespace ManifestTree

namespace Relation

def IsNormal (relation : Relation) : Prop := relation.tag ≠ some defaultLabel

theorem isNormal_normalize (relation : Relation) : relation.normalize.IsNormal := by
  unfold normalize IsNormal
  split
  · simp
  · assumption

theorem label_of_tag {relation : Relation} {tag : String} (h : relation.tag = some tag) :
    relation.label = tag := by
  simp [label, h]

theorem label_of_untagged {relation : Relation} (h : relation.tag = none) :
    relation.label = defaultLabel := by
  simp [label, h]

/-- A tag selects a relation of a list by its label; no tag selects the relation that is alone. -/
def Selected (relations : List Relation) (tag : Option String) (relation : Relation) : Prop :=
  relation ∈ relations ∧ (tag = some relation.label ∨ tag = none ∧ relations.length = 1)

instance (relations : List Relation) (tag : Option String) (relation : Relation) :
    Decidable (Selected relations tag relation) :=
  inferInstanceAs (Decidable (_ ∧ (_ ∨ _ ∧ _)))

/-- The label `default` comes before every other one, and the others follow by code points. -/
def LabelBefore (x y : String) : Prop := y ≠ defaultLabel ∧ (x = defaultLabel ∨ x < y)

instance (x y : String) : Decidable (LabelBefore x y) :=
  inferInstanceAs (Decidable (_ ∧ (_ ∨ _)))

/-- Labels on offer for a list of relations: exactly theirs, each once and in order. -/
structure Offered (relations : List Relation) (labels : List String) : Prop where
  mem_iff : ∀ label, label ∈ labels ↔ ∃ relation ∈ relations, relation.label = label
  ordered : labels.Pairwise LabelBefore

theorem LabelBefore.ne {x y : String} (h : LabelBefore x y) : x ≠ y := by
  rcases h with ⟨hy, rfl | hlt⟩
  · exact hy.symm
  · exact String.ne_of_lt hlt

theorem Offered.nodup {relations : List Relation} {labels : List String}
    (h : Offered relations labels) : labels.Nodup :=
  h.ordered.imp LabelBefore.ne

/-- The labels on offer are determined by the relations. -/
theorem Offered.unique {relations : List Relation} {labels others : List String}
    (h : Offered relations labels) (ho : Offered relations others) : labels = others := by
  have hperm : labels.Perm others :=
    (List.perm_ext_iff_of_nodup h.nodup ho.nodup).mpr fun label ↦
      (h.mem_iff label).trans (ho.mem_iff label).symm
  refine hperm.eq_of_pairwise ?_ h.ordered ho.ordered
  rintro x y - - ⟨hy, rfl | hxy⟩ ⟨hx, heq | hyx⟩
  · exact absurd heq hy
  · exact absurd rfl hx
  · exact absurd heq hy
  · exact absurd hyx (String.lt_asymm hxy)

end Relation

namespace Choice

/-! ## Tags in ascending order -/

def Ascending (byTag : List (String × Relation)) : Prop := byTag.Pairwise fun x y ↦ x.1 < y.1

theorem insertByTag_eq_none_iff {byTag : List (String × Relation)} (h : Ascending byTag)
    (tag : String) (relation : Relation) :
    insertByTag tag relation byTag = none ↔ tag ∈ byTag.map Prod.fst := by
  induction byTag with
  | nil => simp [insertByTag]
  | cons entry rest ih =>
    rcases entry with ⟨other, found⟩
    obtain ⟨hhead, hrest⟩ := List.pairwise_cons.mp h
    by_cases heq : tag = other
    · simp [insertByTag, heq]
    · by_cases hlt : tag < other
      · have hnot : tag ∉ rest.map Prod.fst := by
          intro hmem
          obtain ⟨entry, hentry, rfl⟩ := List.mem_map.mp hmem
          exact String.lt_irrefl _ (String.lt_trans hlt (hhead entry hentry))
        rw [insertByTag, if_neg heq, if_pos hlt, List.map_cons, List.mem_cons]
        simp [heq, hnot]
      · rw [insertByTag, if_neg heq, if_neg hlt, Option.map_eq_none_iff, ih hrest,
          List.map_cons, List.mem_cons]
        simp [heq]

theorem perm_of_insertByTag {byTag result : List (String × Relation)} {tag : String}
    {relation : Relation} (h : insertByTag tag relation byTag = some result) :
    result.Perm ((tag, relation) :: byTag) := by
  induction byTag generalizing result with
  | nil =>
    cases h
    exact List.Perm.refl _
  | cons entry rest ih =>
    rcases entry with ⟨other, found⟩
    unfold insertByTag at h
    split at h
    · cases h
    · split at h
      · cases h
        exact List.Perm.refl _
      · obtain ⟨inner, hinner, rfl⟩ := Option.map_eq_some_iff.mp h
        exact ((ih hinner).cons _).trans (List.Perm.swap _ _ _)

theorem ascending_of_insertByTag {byTag result : List (String × Relation)} {tag : String}
    {relation : Relation} (hs : Ascending byTag)
    (h : insertByTag tag relation byTag = some result) : Ascending result := by
  induction byTag generalizing result with
  | nil =>
    cases h
    exact List.pairwise_singleton _ _
  | cons entry rest ih =>
    rcases entry with ⟨other, found⟩
    obtain ⟨hhead, hrest⟩ := List.pairwise_cons.mp hs
    unfold insertByTag at h
    split at h
    · cases h
    · next hne =>
      split at h
      · next hlt =>
        cases h
        refine List.pairwise_cons.mpr ⟨?_, hs⟩
        intro entry hentry
        rcases List.mem_cons.mp hentry with rfl | hmem
        · exact hlt
        · exact String.lt_trans hlt (hhead entry hmem)
      · next hge =>
        obtain ⟨inner, hinner, rfl⟩ := Option.map_eq_some_iff.mp h
        refine List.pairwise_cons.mpr ⟨?_, ih hrest hinner⟩
        intro entry hentry
        have hmem := (perm_of_insertByTag hinner).mem_iff.mp hentry
        rcases List.mem_cons.mp hmem with rfl | hmem
        · have hle : other ≤ tag := String.not_lt.mp hge
          exact Decidable.byContradiction fun hnot ↦
            hne (String.le_antisymm (String.not_lt.mp hnot) hle)
        · exact hhead entry hmem

theorem lookup_eq_some_iff {byTag : List (String × Relation)} (h : Ascending byTag)
    (tag : String) (relation : Relation) :
    byTag.lookup tag = some relation ↔ (tag, relation) ∈ byTag := by
  induction byTag with
  | nil => simp
  | cons entry rest ih =>
    rcases entry with ⟨other, found⟩
    obtain ⟨hhead, hrest⟩ := List.pairwise_cons.mp h
    by_cases heq : tag = other
    · subst heq
      have hnot : (tag, relation) ∉ rest := fun hmem ↦
        String.lt_irrefl tag (hhead (tag, relation) hmem)
      simp [hnot, eq_comm]
    · have hbeq : (tag == other) = false := beq_eq_false_iff_ne.mpr heq
      rw [List.lookup_cons, hbeq]
      simp [heq, ih hrest]

/-! ## The relations of a choice -/

/-- What sorting several relations of a pair keeps up. -/
structure Sorted (untagged : Option Relation) (byTag : List (String × Relation)) : Prop where
  tag_untagged : ∀ relation, untagged = some relation → relation.tag = none
  tag_byTag : ∀ entry ∈ byTag, entry.2.tag = some entry.1
  ne_default : ∀ entry ∈ byTag, entry.1 ≠ Relation.defaultLabel
  ascending : Ascending byTag

/-- The relations that a choice is between, the untagged one first. -/
def relations : Choice → List Relation
  | only relation => [relation]
  | tagged untagged byTag => untagged.toList ++ byTag.map Prod.snd

theorem sorted_empty : Sorted none [] :=
  ⟨by simp, by simp, by simp, List.Pairwise.nil⟩

/-- The labels on offer are the labels of the relations. -/
theorem candidates_tagged {untagged : Option Relation} {byTag : List (String × Relation)}
    (h : Sorted untagged byTag) :
    (tagged untagged byTag).candidates =
      (tagged untagged byTag).relations.map Relation.label := by
  have hbyTag : byTag.map Prod.fst = (byTag.map Prod.snd).map Relation.label := by
    rw [List.map_map]
    refine List.map_congr_left fun entry hentry ↦ ?_
    exact (Relation.label_of_tag (h.tag_byTag entry hentry)).symm
  cases untagged with
  | none => simp [candidates, relations, hbyTag]
  | some relation =>
    have hlabel := Relation.label_of_untagged (h.tag_untagged relation rfl)
    simp [candidates, relations, hbyTag, hlabel]

theorem candidates_ordered {untagged : Option Relation} {byTag : List (String × Relation)}
    (h : Sorted untagged byTag) :
    (tagged untagged byTag).candidates.Pairwise Relation.LabelBefore := by
  have htags : (byTag.map Prod.fst).Pairwise Relation.LabelBefore := by
    rw [List.pairwise_map]
    refine List.Pairwise.imp_of_mem ?_ h.ascending
    intro x y _ hy hlt
    exact ⟨h.ne_default y hy, Or.inr hlt⟩
  cases untagged with
  | none => simpa [candidates] using htags
  | some relation =>
    refine List.pairwise_cons.mpr ⟨?_, htags⟩
    intro label hlabel
    obtain ⟨entry, hentry, rfl⟩ := List.mem_map.mp hlabel
    exact ⟨h.ne_default entry hentry, Or.inl rfl⟩

theorem nodup_labels {untagged : Option Relation} {byTag : List (String × Relation)}
    (h : Sorted untagged byTag) :
    ((tagged untagged byTag).relations.map Relation.label).Nodup := by
  rw [← candidates_tagged h]
  exact (candidates_ordered h).imp Relation.LabelBefore.ne

/-- Among several relations a tag selects the one with its label. -/
theorem select_tagged_eq_some_iff {untagged : Option Relation}
    {byTag : List (String × Relation)} (h : Sorted untagged byTag) (tag : String)
    (relation : Relation) :
    (tagged untagged byTag).select (some tag) = some relation ↔
      relation ∈ (tagged untagged byTag).relations ∧ relation.label = tag := by
  have hbyTag : relation ∈ byTag.map Prod.snd ↔ (relation.label, relation) ∈ byTag := by
    rw [List.mem_map]
    constructor
    · rintro ⟨entry, hentry, rfl⟩
      rw [Relation.label_of_tag (h.tag_byTag entry hentry)]
      exact hentry
    · intro hmem
      exact ⟨_, hmem, rfl⟩
  have huntagged : untagged = some relation → relation.label = Relation.defaultLabel :=
    fun heq ↦ Relation.label_of_untagged (h.tag_untagged relation heq)
  have htagged : (relation.label, relation) ∈ byTag → relation.label ≠ Relation.defaultLabel :=
    fun hmem ↦ h.ne_default _ hmem
  simp only [select, relations, List.mem_append, Option.mem_toList, hbyTag]
  by_cases htag : tag = Relation.defaultLabel
  · rw [if_pos htag]
    constructor
    · intro heq
      exact ⟨Or.inl heq, (huntagged heq).trans htag.symm⟩
    · rintro ⟨heq | hmem, hlabel⟩
      · exact heq
      · exact absurd (hlabel.trans htag) (htagged hmem)
  · rw [if_neg htag, lookup_eq_some_iff h.ascending]
    constructor
    · intro hmem
      have hlabel := Relation.label_of_tag (h.tag_byTag _ hmem)
      rw [hlabel]
      exact ⟨Or.inr hmem, rfl⟩
    · rintro ⟨heq | hmem, hlabel⟩
      · exact absurd (hlabel.symm.trans (huntagged heq)) htag
      · rwa [hlabel] at hmem

/-! ## Sorting the relations of a pair -/

theorem sorted_untagged {byTag : List (String × Relation)} {relation : Relation}
    (h : Sorted none byTag) (htag : relation.tag = none) : Sorted (some relation) byTag where
  tag_untagged := by
    intro other heq
    cases heq
    exact htag
  tag_byTag := h.tag_byTag
  ne_default := h.ne_default
  ascending := h.ascending

theorem sorted_insertByTag {untagged : Option Relation} {byTag result : List (String × Relation)}
    {relation : Relation} {tag : String} (h : Sorted untagged byTag)
    (hnormal : relation.IsNormal) (htag : relation.tag = some tag)
    (hinsert : insertByTag tag relation byTag = some result) : Sorted untagged result where
  tag_untagged := h.tag_untagged
  tag_byTag := by
    intro entry hentry
    rcases List.mem_cons.mp ((perm_of_insertByTag hinsert).mem_iff.mp hentry) with rfl | hmem
    · exact htag
    · exact h.tag_byTag entry hmem
  ne_default := by
    intro entry hentry
    rcases List.mem_cons.mp ((perm_of_insertByTag hinsert).mem_iff.mp hentry) with rfl | hmem
    · rintro rfl
      exact hnormal htag
    · exact h.ne_default entry hmem
  ascending := ascending_of_insertByTag h.ascending hinsert

theorem perm_relations_untagged (byTag : List (String × Relation)) (relation : Relation)
    (rest : List Relation) :
    ((tagged (some relation) byTag).relations ++ rest).Perm
      ((tagged none byTag).relations ++ relation :: rest) := by
  change (relation :: (byTag.map Prod.snd ++ rest)).Perm (byTag.map Prod.snd ++ relation :: rest)
  exact List.perm_middle.symm

theorem perm_relations_insertByTag {untagged : Option Relation}
    {byTag result : List (String × Relation)} {relation : Relation} {tag : String}
    (hinsert : insertByTag tag relation byTag = some result) (rest : List Relation) :
    ((tagged untagged result).relations ++ rest).Perm
      ((tagged untagged byTag).relations ++ relation :: rest) := by
  have hresult := (perm_of_insertByTag hinsert).map Prod.snd
  simp only [relations, List.append_assoc]
  apply List.Perm.append_left _
  exact (hresult.append_right rest).trans List.perm_middle.symm

/-- Sorting keeps the relations and brings them into order. -/
theorem gather_sound {untagged : Option Relation} {byTag : List (String × Relation)}
    {entries : List Relation} {choice : Choice} (hs : Sorted untagged byTag)
    (hnormal : ∀ relation ∈ entries, relation.IsNormal)
    (h : gather untagged byTag entries = .ok choice) :
    ∃ untagged' byTag', choice = tagged untagged' byTag' ∧ Sorted untagged' byTag' ∧
      choice.relations.Perm ((tagged untagged byTag).relations ++ entries) := by
  induction entries generalizing untagged byTag with
  | nil =>
    cases h
    exact ⟨untagged, byTag, rfl, hs, by rw [List.append_nil]⟩
  | cons relation rest ih =>
    have hhead := hnormal relation List.mem_cons_self
    have hrest := fun other hmem ↦ hnormal other (List.mem_cons_of_mem relation hmem)
    unfold gather at h
    split at h
    · next htag =>
      split at h
      · cases h
      · next hnone =>
        rw [Option.not_isSome_iff_eq_none] at hnone
        subst hnone
        obtain ⟨untagged', byTag', rfl, hs', hperm⟩ := ih (sorted_untagged hs htag) hrest h
        exact ⟨untagged', byTag', rfl, hs', hperm.trans (perm_relations_untagged _ _ _)⟩
    · next tag htag =>
      split at h
      · cases h
      · next result hinsert =>
        obtain ⟨untagged', byTag', rfl, hs', hperm⟩ :=
          ih (sorted_insertByTag hs hhead htag hinsert) hrest h
        exact ⟨untagged', byTag', rfl, hs', hperm.trans (perm_relations_insertByTag hinsert _)⟩

/-- A relation whose label is taken already makes the labels repeat. -/
theorem not_nodup_labels {front : List Relation} {relation other : Relation}
    (rest : List Relation) (hmem : other ∈ front) (hlabel : other.label = relation.label) :
    ¬ ((front ++ relation :: rest).map Relation.label).Nodup := by
  rw [List.map_append, List.map_cons]
  intro h
  have hdisjoint := (List.nodup_append.mp h).2.2
  exact hdisjoint _ (List.mem_map_of_mem hmem) _ List.mem_cons_self hlabel

/-- Sorting succeeds exactly when no label repeats. -/
theorem gather_isOk_iff {untagged : Option Relation} {byTag : List (String × Relation)}
    {entries : List Relation} (hs : Sorted untagged byTag)
    (hnormal : ∀ relation ∈ entries, relation.IsNormal) :
    (∃ choice, gather untagged byTag entries = .ok choice) ↔
      (((tagged untagged byTag).relations ++ entries).map Relation.label).Nodup := by
  induction entries generalizing untagged byTag with
  | nil =>
    rw [List.append_nil]
    exact iff_of_true ⟨_, rfl⟩ (nodup_labels hs)
  | cons relation rest ih =>
    have hhead := hnormal relation List.mem_cons_self
    have hrest := fun other hmem ↦ hnormal other (List.mem_cons_of_mem relation hmem)
    unfold gather
    split
    · next htag =>
      cases untagged with
      | none =>
        simp only [Option.isSome_none, Bool.false_eq_true, if_false]
        rw [ih (sorted_untagged hs htag) hrest]
        exact ((perm_relations_untagged byTag relation rest).map _).nodup_iff
      | some other =>
        have hlabel : other.label = relation.label :=
          (Relation.label_of_untagged (hs.tag_untagged other rfl)).trans
            (Relation.label_of_untagged htag).symm
        have hmem : other ∈ (tagged (some other) byTag).relations := List.mem_cons_self
        simpa using not_nodup_labels rest hmem hlabel
    · next tag htag =>
      split
      · next hinsert =>
        rw [insertByTag_eq_none_iff hs.ascending] at hinsert
        obtain ⟨entry, hentry, rfl⟩ := List.mem_map.mp hinsert
        have hlabel : entry.2.label = relation.label :=
          (Relation.label_of_tag (hs.tag_byTag entry hentry)).trans
            (Relation.label_of_tag htag).symm
        have hmem : entry.2 ∈ (tagged untagged byTag).relations :=
          List.mem_append_right _ (List.mem_map_of_mem hentry)
        simpa using not_nodup_labels rest hmem hlabel
      · next result hinsert =>
        rw [ih (sorted_insertByTag hs hhead htag hinsert) hrest]
        exact ((perm_relations_insertByTag hinsert rest).map _).nodup_iff

/-- A choice that answers for a list of relations. -/
structure AnswersFor (choice : Choice) (entries : List Relation) : Prop where
  select_iff : ∀ tag relation,
    choice.select tag = some relation ↔ Relation.Selected entries tag relation
  offered : Relation.Offered entries choice.candidates

theorem answersFor_only (relation : Relation) : AnswersFor (only relation) [relation] where
  select_iff := by
    intro tag other
    cases tag with
    | none => simp [select, Relation.Selected, eq_comm]
    | some tag =>
      simp only [select, Relation.Selected, List.mem_singleton, Option.some.injEq,
        reduceCtorEq, false_and, or_false, Option.ite_none_right_eq_some]
      constructor
      · rintro ⟨hlabel, rfl⟩
        exact ⟨rfl, hlabel.symm⟩
      · rintro ⟨rfl, htag⟩
        exact ⟨htag.symm, rfl⟩
  offered := ⟨by simp [candidates, eq_comm], List.pairwise_singleton _ _⟩

theorem answersFor_tagged {untagged : Option Relation} {byTag : List (String × Relation)}
    {entries : List Relation} (hs : Sorted untagged byTag)
    (hperm : (tagged untagged byTag).relations.Perm entries) (hlength : entries.length ≠ 1) :
    AnswersFor (tagged untagged byTag) entries where
  select_iff := by
    intro tag relation
    cases tag with
    | none => simp [select, Relation.Selected, hlength]
    | some tag =>
      rw [select_tagged_eq_some_iff hs, hperm.mem_iff]
      simp [Relation.Selected, eq_comm]
  offered := by
    refine ⟨fun label ↦ ?_, candidates_ordered hs⟩
    rw [candidates_tagged hs, (hperm.map _).mem_iff, List.mem_map]

theorem ofList_eq_gather {entries : List Relation} (h : entries.length ≠ 1) :
    ofList entries = gather none [] entries := by
  unfold ofList
  split
  · exact absurd rfl h
  · rfl

theorem ofList_answersFor {entries : List Relation} {choice : Choice}
    (hnormal : ∀ relation ∈ entries, relation.IsNormal) (h : ofList entries = .ok choice) :
    AnswersFor choice entries := by
  by_cases hlength : entries.length = 1
  · obtain ⟨relation, rfl⟩ := List.length_eq_one_iff.mp hlength
    cases h
    exact answersFor_only relation
  · rw [ofList_eq_gather hlength] at h
    obtain ⟨untagged, byTag, rfl, hs, hperm⟩ := gather_sound sorted_empty hnormal h
    exact answersFor_tagged hs hperm hlength

theorem ofList_isOk_iff {entries : List Relation}
    (hnormal : ∀ relation ∈ entries, relation.IsNormal) :
    (∃ choice, ofList entries = .ok choice) ↔ (entries.map Relation.label).Nodup := by
  by_cases hlength : entries.length = 1
  · obtain ⟨relation, rfl⟩ := List.length_eq_one_iff.mp hlength
    exact iff_of_true ⟨_, rfl⟩ (List.nodup_singleton _)
  · rw [ofList_eq_gather hlength, gather_isOk_iff sorted_empty hnormal]
    rfl

end Choice

namespace Relations

/-! ## All pairs -/

theorem chooseAll_isOk_iff (groups : Association (TypeName × TypeName) (List Relation)) :
    (∃ choices, chooseAll groups = .ok choices) ↔
      ∀ group ∈ groups, ∃ choice, Choice.ofList group.2 = .ok choice := by
  induction groups with
  | nil => simp [chooseAll]
  | cons group rest ih =>
    rcases group with ⟨pair, entries⟩
    rw [List.forall_mem_cons, ← ih]
    cases hhead : Choice.ofList entries with
    | error failure => simp [chooseAll, hhead, bind, Except.bind]
    | ok choice =>
      cases hrest : chooseAll rest with
      | error failure => simp [chooseAll, hhead, hrest, bind, Except.bind]
      | ok choices => simp [chooseAll, hhead, hrest, bind, Except.bind, pure, Except.pure]

theorem get?_chooseAll {groups : Association (TypeName × TypeName) (List Relation)}
    {choices : Association (TypeName × TypeName) Choice} (h : chooseAll groups = .ok choices)
    (pair : TypeName × TypeName) :
    (groups.get? pair = none ∧ choices.get? pair = none) ∨
      ∃ entries choice, groups.get? pair = some entries ∧ choices.get? pair = some choice ∧
        Choice.ofList entries = .ok choice := by
  induction groups generalizing choices with
  | nil =>
    cases h
    exact Or.inl ⟨rfl, rfl⟩
  | cons group rest ih =>
    rcases group with ⟨name, entries⟩
    cases hhead : Choice.ofList entries with
    | error failure => simp [chooseAll, hhead, bind, Except.bind] at h
    | ok choice =>
      cases hrest : chooseAll rest with
      | error failure => simp [chooseAll, hhead, hrest, bind, Except.bind] at h
      | ok others =>
        have heq : (name, choice) :: others = choices := by
          simpa [chooseAll, hhead, hrest, bind, Except.bind, pure, Except.pure] using h
        subst heq
        by_cases hname : name = pair
        · subst hname
          exact Or.inr ⟨entries, choice, Association.get?_cons_self _ _ _,
            Association.get?_cons_self _ _ _, hhead⟩
        · rw [Association.get?_cons_of_ne hname, Association.get?_cons_of_ne hname]
          exact ih hrest

/-- The declared relations with every explicit `default` tag removed. -/
def normalized (declared : List Relation) : List Relation := declared.map Relation.normalize

/-- The declared relations of a pair, in the order of declaration. -/
def ofPair (declared : List Relation) (parent child : TypeName) : List Relation :=
  (normalized declared).filter fun relation ↦ (relation.parent, relation.child) = (parent, child)

theorem isNormal_of_mem_ofPair {declared : List Relation} {parent child : TypeName}
    {relation : Relation} (h : relation ∈ ofPair declared parent child) : relation.IsNormal := by
  obtain ⟨original, _, rfl⟩ := List.mem_map.mp (List.mem_filter.mp h).1
  exact original.isNormal_normalize

def pairs (declared : List Relation) : Association (TypeName × TypeName) (List Relation) :=
  Association.group (fun relation ↦ (relation.parent, relation.child)) (normalized declared)

theorem get?_pairs (declared : List Relation) (parent child : TypeName) :
    (pairs declared).get? (parent, child) =
      if ofPair declared parent child = [] then none else some (ofPair declared parent child) :=
  Association.get?_group _ _ _

theorem ofList_eq_map (declared : List Relation) :
    ofList declared = (chooseAll (pairs declared)).map fun choices ↦
      ⟨Association.group Relation.parent (normalized declared), choices⟩ := by
  unfold ofList
  change (chooseAll (pairs declared) >>= fun choices ↦ pure (Relations.mk
    (Association.group Relation.parent (normalized declared)) choices)) = _
  cases chooseAll (pairs declared) <;> rfl

/-- A list is accepted exactly when no pair repeats a label. -/
theorem ofList_isOk_iff (declared : List Relation) :
    (∃ relations, ofList declared = .ok relations) ↔
      ∀ parent child, ((ofPair declared parent child).map Relation.label).Nodup := by
  have hchoose : (∃ relations, ofList declared = .ok relations) ↔
      ∃ choices, chooseAll (pairs declared) = .ok choices := by
    rw [ofList_eq_map]
    cases chooseAll (pairs declared) <;> simp [Except.map]
  rw [hchoose, chooseAll_isOk_iff]
  constructor
  · intro h parent child
    by_cases hnil : ofPair declared parent child = []
    · rw [hnil]
      exact List.nodup_nil
    · have hget := (get?_pairs declared parent child).trans (if_neg hnil)
      have hmem := Association.mem_of_get?_eq_some hget
      exact (Choice.ofList_isOk_iff fun _ ↦ isNormal_of_mem_ofPair).mp (h _ hmem)
  · rintro h ⟨⟨parent, child⟩, entries⟩ hmem
    have hsome := Association.get?_eq_some_of_mem (Association.nodup_map_fst_group _ _) hmem
    have heq := (get?_pairs declared parent child).symm.trans hsome
    split at heq
    · cases heq
    · cases heq
      exact (Choice.ofList_isOk_iff fun _ ↦ isNormal_of_mem_ofPair).mpr (h parent child)

/-- What accepted relations consist of. -/
theorem eq_of_ofList {declared : List Relation} {relations : Relations}
    (h : ofList declared = .ok relations) :
    relations.byParent = Association.group Relation.parent (normalized declared) ∧
      chooseAll (pairs declared) = .ok relations.choices := by
  rw [ofList_eq_map] at h
  cases hchoose : chooseAll (pairs declared) with
  | error failure =>
    rw [hchoose] at h
    cases h
  | ok choices =>
    rw [hchoose] at h
    cases h
    exact ⟨rfl, rfl⟩

theorem under_ofList {declared : List Relation} {relations : Relations}
    (h : ofList declared = .ok relations) (parent : TypeName) :
    relations.under parent =
      (normalized declared).filter fun relation ↦ relation.parent = parent := by
  unfold under
  rw [(eq_of_ofList h).1]
  exact Association.getD_get?_group _ _ _

theorem size_ofList {declared : List Relation} {relations : Relations}
    (h : ofList declared = .ok relations) : relations.size = declared.length := by
  unfold size
  rw [(eq_of_ofList h).1, Association.length_flatMap_group, normalized, List.length_map]

/-- The choice of a pair answers for the declared relations of the pair. -/
theorem get?_choices_ofList {declared : List Relation} {relations : Relations}
    (h : ofList declared = .ok relations) (parent child : TypeName) :
    (ofPair declared parent child = [] ∧ relations.choices.get? (parent, child) = none) ∨
      (ofPair declared parent child ≠ [] ∧
        ∃ choice, relations.choices.get? (parent, child) = some choice ∧
          choice.AnswersFor (ofPair declared parent child)) := by
  rcases get?_chooseAll (eq_of_ofList h).2 (parent, child) with
    ⟨hnone, hchoice⟩ | ⟨entries, choice, hsome, hchoice, hofList⟩
  · rw [get?_pairs] at hnone
    split at hnone
    · next hnil => exact Or.inl ⟨hnil, hchoice⟩
    · cases hnone
  · rw [get?_pairs] at hsome
    split at hsome
    · cases hsome
    · next hne =>
      cases hsome
      refine Or.inr ⟨hne, choice, hchoice, ?_⟩
      exact Choice.ofList_answersFor (fun _ ↦ isNormal_of_mem_ofPair) hofList

theorem resolve_of_get?_eq_none {relations : Relations} {parent child : TypeName}
    (h : relations.choices.get? (parent, child) = none) (tag : Option String) :
    relations.resolve parent child tag = .error (.unplaceable parent child [parent]) := by
  unfold resolve
  rw [h]

theorem resolve_of_get?_eq_some {relations : Relations} {parent child : TypeName}
    {choice : Choice} (h : relations.choices.get? (parent, child) = some choice)
    (tag : Option String) :
    relations.resolve parent child tag =
      match choice.select tag with
      | some relation => .ok relation
      | none => .error (.ambiguous parent child tag choice.candidates [parent]) := by
  cases hselect : choice.select tag <;> simp [resolve, h, hselect]

theorem resolve_eq_ok_iff {declared : List Relation} {relations : Relations}
    (h : ofList declared = .ok relations) (parent child : TypeName) (tag : Option String)
    (relation : Relation) :
    relations.resolve parent child tag = .ok relation ↔
      Relation.Selected (ofPair declared parent child) tag relation := by
  rcases get?_choices_ofList h parent child with ⟨hnil, hnone⟩ | ⟨-, choice, hsome, hanswers⟩
  · rw [resolve_of_get?_eq_none hnone, hnil]
    simp [Relation.Selected]
  · rw [resolve_of_get?_eq_some hsome, ← hanswers.select_iff]
    cases choice.select tag <;> simp

/-- A failed look-up names the pair, and where the pair has relations also their labels. -/
theorem resolve_eq_error_iff {declared : List Relation} {relations : Relations}
    (h : ofList declared = .ok relations) (parent child : TypeName) (tag : Option String)
    (failure : Failure) :
    relations.resolve parent child tag = .error failure ↔
      (ofPair declared parent child = [] ∧ failure = .unplaceable parent child [parent]) ∨
        (ofPair declared parent child ≠ [] ∧
          (∀ relation, ¬ Relation.Selected (ofPair declared parent child) tag relation) ∧
          ∃ labels, Relation.Offered (ofPair declared parent child) labels ∧
            failure = .ambiguous parent child tag labels [parent]) := by
  rcases get?_choices_ofList h parent child with ⟨hnil, hnone⟩ | ⟨hne, choice, hsome, hanswers⟩
  · rw [resolve_of_get?_eq_none hnone]
    simp [hnil, eq_comm]
  · rw [resolve_of_get?_eq_some hsome]
    simp only [← hanswers.select_iff, hne, false_and, false_or, ne_eq, not_false_eq_true, true_and]
    cases hselect : choice.select tag with
    | some relation =>
      simp only [reduceCtorEq, false_iff, not_and]
      exact fun hnot ↦ absurd rfl (hnot relation)
    | none =>
      simp only [reduceCtorEq, not_false_eq_true, implies_true, true_and, Except.error.injEq]
      constructor
      · rintro rfl
        exact ⟨choice.candidates, hanswers.offered, rfl⟩
      · rintro ⟨labels, hlabels, rfl⟩
        rw [hlabels.unique hanswers.offered]

/-- Grouped relations refine the list of declared ones: the list is accepted exactly when the
labels of no pair repeat, and then each question is answered as a scan of the list answers it. -/
theorem ofList_refines_scan (declared : List Relation) :
    ((∃ relations, ofList declared = .ok relations) ↔
      ∀ parent child, ((ofPair declared parent child).map Relation.label).Nodup) ∧
    ∀ relations, ofList declared = .ok relations →
      (∀ parent, relations.under parent =
        (normalized declared).filter fun relation ↦ relation.parent = parent) ∧
      relations.size = declared.length ∧
      ∀ parent child tag,
        (∀ relation, relations.resolve parent child tag = .ok relation ↔
          Relation.Selected (ofPair declared parent child) tag relation) ∧
        ∀ failure, relations.resolve parent child tag = .error failure ↔
          (ofPair declared parent child = [] ∧ failure = .unplaceable parent child [parent]) ∨
            (ofPair declared parent child ≠ [] ∧
              (∀ relation, ¬ Relation.Selected (ofPair declared parent child) tag relation) ∧
              ∃ labels, Relation.Offered (ofPair declared parent child) labels ∧
                failure = .ambiguous parent child tag labels [parent]) := by
  refine ⟨ofList_isOk_iff declared, fun relations h ↦ ?_⟩
  refine ⟨under_ofList h, size_ofList h, fun parent child tag ↦ ?_⟩
  exact ⟨resolve_eq_ok_iff h parent child tag, resolve_eq_error_iff h parent child tag⟩

/-- Two relations of one pair and a single one of another: the tag decides only within the pair. -/
theorem ofList_refines_scan_tagged :
    let main : Relation := ⟨⟨"Container"⟩, ⟨"Pod"⟩, .ofKeys ["containers"], true, some "default"⟩
    let init : Relation := ⟨⟨"Container"⟩, ⟨"Pod"⟩, .ofKeys ["inits"], true, some "init"⟩
    let volume : Relation := ⟨⟨"Volume"⟩, ⟨"Pod"⟩, .ofKeys ["volumes"], true, none⟩
    ∃ relations, ofList [main, volume, init] = .ok relations ∧
      relations.resolve ⟨"Pod"⟩ ⟨"Container"⟩ (some "init") = .ok init ∧
      relations.resolve ⟨"Pod"⟩ ⟨"Volume"⟩ none = .ok volume ∧
      relations.resolve ⟨"Pod"⟩ ⟨"Container"⟩ none =
        .error (.ambiguous ⟨"Pod"⟩ ⟨"Container"⟩ none ["default", "init"] [⟨"Pod"⟩]) := by
  intro main init volume
  obtain ⟨relations, hrelations⟩ : ∃ relations, ofList [main, volume, init] = .ok relations :=
    ⟨_, rfl⟩
  obtain ⟨-, -, hresolve⟩ := (ofList_refines_scan [main, volume, init]).2 relations hrelations
  refine ⟨relations, hrelations, ?_, ?_, ?_⟩
  · exact ((hresolve _ _ _).1 init).mpr (by decide)
  · exact ((hresolve _ _ _).1 volume).mpr (by decide)
  · refine ((hresolve _ _ _).2 _).mpr (Or.inr ⟨by decide, ?_, ["default", "init"], ?_, rfl⟩)
    · rintro relation ⟨-, htag | ⟨-, hlength⟩⟩
      · cases htag
      · exact absurd hlength (by decide)
    · exact ⟨by simp [ofPair, normalized, main, volume, init, Relation.normalize,
        Relation.label, Relation.defaultLabel, eq_comm], by decide⟩

end Relations
end ManifestTree
