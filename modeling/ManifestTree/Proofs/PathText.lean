import ManifestTree.Catalog.Decode
import ManifestTree.Outline.Codec
import ManifestTree.Proofs.PathGrammar

/-!
# Path texts and paths agree

A key is told from the text around it when it is not empty and has neither a dot nor an opening
bracket. The text of a path with such keys is cut into the parts of the grammar: a key takes the
indices behind it into its part, and only indices at the front have a part of their own. So reading
gives the path back, and no other path is ever read. Declared relations and the literals of outline
files keep their paths as such texts.
-/

namespace ManifestTree

namespace Step

/-- A key, if it is one, is not empty and has neither a dot nor an opening bracket. -/
def PlainKey : Step → Prop
  | key name => name ≠ "" ∧ '.' ∉ name.toList ∧ '[' ∉ name.toList
  | index _ => True

def SmallIndex : Step → Prop
  | key _ => True
  | index position => position < 2 ^ 64

end Step

namespace FieldPath

def PlainKeys (path : FieldPath) : Prop := ∀ step ∈ path.steps, step.PlainKey

def SmallIndices (path : FieldPath) : Prop := ∀ step ∈ path.steps, step.SmallIndex

/-! ## What can be read -/

theorem Groups.lt {groups : List Char} {indices : List Nat} (h : Groups groups indices) :
    ∀ n ∈ indices, n < 2 ^ 64 := by
  induction h with
  | nil => exact fun _ hn ↦ absurd hn List.not_mem_nil
  | cons hindex _ ih =>
    obtain ⟨-, -, -, -, -, hlt⟩ := hindex
    exact List.forall_mem_cons.mpr ⟨hlt, ih⟩

theorem IsPart.plain {piece : List Char} {steps : List Step} (h : IsPart piece steps)
    (hdot : '.' ∉ piece) : ∀ step ∈ steps, step.PlainKey ∧ step.SmallIndex := by
  obtain ⟨key, groups, ns, rfl, -, hbracket, hgroups, rfl⟩ := h
  refine List.forall_mem_append.mpr ⟨fun step hstep ↦ ?_, fun step hstep ↦ ?_⟩
  · rw [keyStep] at hstep
    split at hstep
    · cases hstep
    · next hne =>
      rw [List.mem_singleton.mp hstep]
      refine ⟨⟨fun hempty ↦ ?_, ?_, ?_⟩, trivial⟩
      · rw [← String.toList_eq_nil_iff, String.toList_ofList] at hempty
        exact hne (List.isEmpty_iff.mpr hempty)
      · rw [String.toList_ofList]
        exact fun hmem ↦ hdot (List.mem_append_left _ hmem)
      · rwa [String.toList_ofList]
  · obtain ⟨n, hn, rfl⟩ := List.mem_map.mp hstep
    exact ⟨trivial, hgroups.lt n hn⟩

/-- Only paths of plain keys and small indices are denoted by texts. -/
theorem Denotes.plain {text : String} {path : FieldPath} (h : Denotes text path) :
    path.PlainKeys ∧ path.SmallIndices := by
  obtain ⟨pieces, inner, -, hdots, hparts, hsteps⟩ := h
  have hall : ∀ step ∈ inner.flatten, step.PlainKey ∧ step.SmallIndex := by
    clear hsteps
    induction hparts with
    | nil => exact fun _ hstep ↦ absurd hstep List.not_mem_nil
    | cons hpart _ ih =>
      obtain ⟨hdot, hdots⟩ := List.forall_mem_cons.mp hdots
      exact List.forall_mem_append.mpr ⟨hpart.plain hdot, ih hdots⟩
  rw [← hsteps] at hall
  exact ⟨fun step hstep ↦ (hall step hstep).1, fun step hstep ↦ (hall step hstep).2⟩

/-! ## What is written -/

def groupsText (indices : List Nat) : List Char :=
  indices.flatMap fun n ↦ '[' :: (Nat.toDigits 10 n ++ [']'])

theorem isIndex_toDigits {n : Nat} (h : n < 2 ^ 64) : IsIndex (Nat.toDigits 10 n) n :=
  ⟨Nat.toDigits 10 n, .inl rfl, Nat.toDigits_ne_nil,
    fun _ hc ↦ Nat.isDigit_of_mem_toDigits (by decide) (by decide) hc,
    Nat.ofDigitChars_ten_toDigits, h⟩

theorem groupsText_cons (n : Nat) (rest : List Nat) :
    groupsText (n :: rest) = '[' :: (Nat.toDigits 10 n ++ ']' :: groupsText rest) := by
  simp [groupsText]

theorem toList_tailText_index (n : Nat) (rest : List Step) : (tailText (.index n :: rest)).toList =
    '[' :: (Nat.toDigits 10 n ++ ']' :: (tailText rest).toList) := by
  simp [tailText]

theorem groups_groupsText {indices : List Nat} (h : ∀ n ∈ indices, n < 2 ^ 64) :
    Groups (groupsText indices) indices := by
  induction indices with
  | nil => exact .nil
  | cons n rest ih =>
    obtain ⟨hn, hrest⟩ := List.forall_mem_cons.mp h
    rw [groupsText_cons]
    exact .cons (isIndex_toDigits hn) (ih hrest)

theorem dot_not_mem_groupsText (indices : List Nat) : '.' ∉ groupsText indices := by
  intro hmem
  obtain ⟨n, -, hn⟩ := List.mem_flatMap.mp hmem
  have hdigit : '.' ∈ Nat.toDigits 10 n := by simpa using hn
  exact absurd (Nat.isDigit_of_mem_toDigits (by decide) (by decide) hdigit) (by decide)

/-- A key and the indices behind it make one part. -/
theorem isPart_key {name : String} {indices : List Nat} (hname : (Step.key name).PlainKey)
    (hindices : ∀ n ∈ indices, n < 2 ^ 64) :
    IsPart (name.toList ++ groupsText indices) (.key name :: indices.map Step.index) ∧
      '.' ∉ name.toList ++ groupsText indices := by
  obtain ⟨hne, hdot, hbracket⟩ := hname
  have hkey : name.toList ≠ [] := fun hnil ↦ hne (String.toList_eq_nil_iff.mp hnil)
  constructor
  · refine ⟨name.toList, groupsText indices, indices, rfl, List.append_ne_nil_of_left_ne_nil hkey _,
      hbracket, groups_groupsText hindices, ?_⟩
    rw [keyStep, if_neg (mt List.isEmpty_iff.mp hkey), String.ofList_toList]
    rfl
  · rw [List.mem_append, not_or]
    exact ⟨hdot, dot_not_mem_groupsText indices⟩

/-- Indices without a key in front make a part of their own. -/
theorem isPart_indices {indices : List Nat} (hne : indices ≠ [])
    (hindices : ∀ n ∈ indices, n < 2 ^ 64) :
    IsPart (groupsText indices) (indices.map Step.index) := by
  refine ⟨[], groupsText indices, indices, rfl, ?_, List.not_mem_nil,
    groups_groupsText hindices, rfl⟩
  obtain ⟨n, rest, rfl⟩ := List.exists_cons_of_ne_nil hne
  exact List.cons_ne_nil _ _

/-- Steps behind others: indices that belong to the part at hand, then parts with a dot in front of
each. -/
theorem exists_parts_of_tailText {steps : List Step} (hkeys : ∀ step ∈ steps, step.PlainKey)
    (hindices : ∀ step ∈ steps, step.SmallIndex) : ∃ ns pieces inner,
      (tailText steps).toList = groupsText ns ++ pieces.flatMap ('.' :: ·) ∧
        steps = ns.map Step.index ++ inner.flatten ∧ (∀ n ∈ ns, n < 2 ^ 64) ∧
        (∀ piece ∈ pieces, '.' ∉ piece) ∧ List.Forall₂ IsPart pieces inner := by
  induction steps with
  | nil => exact ⟨[], [], [], rfl, rfl, by simp, by simp, .nil⟩
  | cons step rest ih =>
    obtain ⟨hkey, hkeys⟩ := List.forall_mem_cons.mp hkeys
    obtain ⟨hindex, hindices⟩ := List.forall_mem_cons.mp hindices
    obtain ⟨ns, pieces, inner, htext, rfl, hns, hdots, hparts⟩ := ih hkeys hindices
    cases step with
    | key name =>
      obtain ⟨hpart, hdot⟩ := isPart_key hkey hns
      refine ⟨[], _ :: pieces, _ :: inner, ?_, ?_, by simp, List.forall_mem_cons.mpr ⟨hdot, hdots⟩,
        .cons hpart hparts⟩
      · rw [tailText, String.toList_append, String.toList_append, htext]
        simp [groupsText]
      · simp
    | index position =>
      refine ⟨position :: ns, pieces, inner, ?_, rfl, List.forall_mem_cons.mpr ⟨hindex, hns⟩, hdots,
        hparts⟩
      simp only [toList_tailText_index, groupsText_cons, htext, List.cons_append, List.append_assoc]

theorem intercalate_cons (separator piece : List Char) (pieces : List (List Char)) :
    separator.intercalate (piece :: pieces) = piece ++ pieces.flatMap (separator ++ ·) := by
  induction pieces generalizing piece with
  | nil => simp
  | cons next rest ih => rw [List.intercalate_cons_cons, ih, List.flatMap_cons, List.append_assoc,
      List.append_assoc]

/-- The text of a path with plain keys and small indices denotes the path. -/
theorem denotes_text {path : FieldPath} (hkeys : path.PlainKeys) (hindices : path.SmallIndices) :
    Denotes path.text path := by
  rcases path with ⟨steps⟩
  cases steps with
  | nil => exact (denotes_empty_iff _).mpr rfl
  | cons step rest =>
    obtain ⟨hkey, hrestKeys⟩ := List.forall_mem_cons.mp hkeys
    obtain ⟨hindex, hrestIndices⟩ := List.forall_mem_cons.mp hindices
    obtain ⟨ns, pieces, inner, htext, rfl, hns, hdots, hparts⟩ :=
      exists_parts_of_tailText hrestKeys hrestIndices
    cases step with
    | key name =>
      obtain ⟨hpart, hdot⟩ := isPart_key hkey hns
      refine ⟨_ :: pieces, _ :: inner, ?_, List.forall_mem_cons.mpr ⟨hdot, hdots⟩,
        .cons hpart hparts, ?_⟩
      · rw [text, String.toList_append, htext, intercalate_cons, List.append_assoc]
        rfl
      · simp
    | index position =>
      have hall : ∀ n ∈ position :: ns, n < 2 ^ 64 := List.forall_mem_cons.mpr ⟨hindex, hns⟩
      refine ⟨groupsText (position :: ns) :: pieces, _ :: inner, ?_,
        List.forall_mem_cons.mpr ⟨dot_not_mem_groupsText _, hdots⟩,
        .cons (isPart_indices (List.cons_ne_nil _ _) hall) hparts, rfl⟩
      change (tailText (.index position :: _)).toList = _
      simp only [toList_tailText_index, intercalate_cons, groupsText_cons, htext, List.cons_append,
        List.append_assoc, List.nil_append]

/-! ## Reading what is written -/

theorem ofText_text_iff (path : FieldPath) :
    ofText path.text = .ok path ↔ path.PlainKeys ∧ path.SmallIndices := by
  rw [ofText_eq_ok_iff]
  exact ⟨Denotes.plain, fun h ↦ denotes_text h.1 h.2⟩

theorem exists_ofText_iff (path : FieldPath) :
    (∃ text, ofText text = .ok path) ↔ path.PlainKeys ∧ path.SmallIndices := by
  constructor
  · rintro ⟨text, htext⟩
    exact ((ofText_eq_ok_iff text path).mp htext).plain
  · exact fun h ↦ ⟨path.text, (ofText_text_iff path).mpr h⟩

/-- A relation declaration is written so that it is read back if its path is. -/
theorem relation?_relationData {relation : RelationDeclaration}
    (h : parse relation.path.text = .ok relation.path) :
    Catalog.jsonDialect.relation? (Catalog.relationData relation) = some relation := by
  rcases relation with ⟨child, parent, path, array, discriminator⟩
  generalize hdata : Catalog.relationData ⟨child, parent, path, array, discriminator⟩ = data
  have hrecord : Catalog.jsonDialect.record data = some (.named data.members) := by
    rw [← hdata]
    rfl
  have hfields : (Catalog.Record.named data.members).fields? Catalog.Dialect.relationFields =
      some data.members := by
    rw [Catalog.Record.fields?, if_pos]
    rw [← hdata]
    cases discriminator <;> rfl
  have hdiscriminator : Catalog.jsonDialect.optional data.members "discriminator" =
      some discriminator := by
    rw [← hdata]
    cases discriminator <;> rfl
  rw [Catalog.Dialect.relation?, hrecord]
  simp only [Option.bind_eq_bind, Option.bind_some, hfields, hdiscriminator]
  subst hdata
  change ((parse path.text).toOption.bind fun found ↦
    some (⟨child, parent, found, array, discriminator⟩ : RelationDeclaration)) = _
  rw [h]
  rfl

/-- The text of a path is read as the path exactly when no key is empty or has a dot or an opening
bracket and every index fits 64 bits, and these are the paths that texts are read as. What has been
read from any text is written so that it is read again as itself, differs in its text from every
other path that has been read, and is kept by relation declarations and outline data. -/
theorem text_reads_back (path : FieldPath) :
    (ofText path.text = .ok path ↔ path.PlainKeys ∧ path.SmallIndices) ∧
      ((∃ text, ofText text = .ok path) ↔ path.PlainKeys ∧ path.SmallIndices) ∧
      ∀ text, ofText text = .ok path → ofText path.text = .ok path ∧
        (∀ other more, ofText more = .ok other → other.text = path.text → other = path) ∧
        Outline.path? (some (.string path.text)) = some path ∧
        ∀ relation : RelationDeclaration, relation.path = path →
          Catalog.jsonDialect.relation? (Catalog.relationData relation) = some relation := by
  refine ⟨ofText_text_iff path, exists_ofText_iff path, fun text htext ↦ ?_⟩
  have hback : ofText path.text = .ok path :=
    (ofText_text_iff path).mpr ((exists_ofText_iff path).mp ⟨text, htext⟩)
  have hparse := (ofText_eq_ok_iff_parse path.text path).mp hback
  refine ⟨hback, fun other more hmore hsame ↦ ?_, ?_, fun relation hrelation ↦ ?_⟩
  · have hother : ofText other.text = .ok other :=
      (ofText_text_iff other).mpr ((exists_ofText_iff other).mp ⟨more, hmore⟩)
    rw [hsame, hback] at hother
    exact (Except.ok.inj hother).symm
  · change (parse path.text).toOption = some path
    rw [hparse]
    rfl
  · subst hrelation
    exact relation?_relationData hparse

end FieldPath

end ManifestTree
