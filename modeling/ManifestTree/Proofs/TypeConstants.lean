import ManifestTree.Proofs.Association
import ManifestTree.Proofs.QuotedText
import ManifestTree.Source.TypeNames

/-!
# Expressions of types tell the types apart

A constant consists of upper case letters, digits and underscores, so it neither begins like a
string literal nor goes on behind the parenthesis that closes the call it stands in. Each constant
is given away once, and every other type is written with its full name. Hence the expression of a
type determines it, for every collection of types, the types outside the collection included.
-/

namespace ManifestTree

namespace Text

/-! ## Upper case -/

/-- Not a character that ends the expression of a type. -/
def StaysInside (c : Char) : Prop := c ≠ '"' ∧ c ≠ ')'

theorem staysInside_ofNat {code : Nat} (h : 0x41 ≤ code) : StaysInside (Char.ofNat code) := by
  have hcode : (Char.ofNat code).toNat = 0 ∨ 0x41 ≤ (Char.ofNat code).toNat := by
    by_cases hvalid : code.isValidChar
    · rw [Char.ofNat, dif_pos hvalid]
      exact .inr h
    · rw [Char.ofNat, dif_neg hvalid]
      exact .inl rfl
  constructor <;> intro heq <;> rw [heq] at hcode <;> revert hcode <;> decide

theorem le_toUpperSequences : ∀ entry ∈ toUpperSequences, ∀ code ∈ entry.2, 0x41 ≤ code := by
  decide +kernel

theorem le_toUpperRuns : ∀ run ∈ toUpperRuns, (0x41 : Int) ≤ run.1 + run.2.2.2 := by
  decide +kernel

theorem staysInside_mapped {c : Char} (hc : StaysInside c) :
    ∀ d ∈ mapped toUpperRuns toUpperSequences c, StaysInside d := by
  intro d hd
  unfold mapped at hd
  split at hd
  · next codes hlookup =>
    obtain ⟨code, hcode, rfl⟩ := List.mem_map.mp hd
    obtain ⟨front, back, hsplit, -⟩ := List.lookup_eq_some_iff.mp hlookup
    have hmem : (c.toNat, codes) ∈ toUpperSequences := by simp [hsplit]
    exact staysInside_ofNat (le_toUpperSequences _ hmem code hcode)
  · split at hd
    · next first last step distance hfind =>
      rw [List.mem_singleton.mp hd]
      apply staysInside_ofNat
      have hle := le_toUpperRuns _ (List.mem_of_find?_eq_some hfind)
      have hrun := List.find?_some hfind
      simp only [onRun, Bool.and_eq_true, decide_eq_true_eq] at hrun
      dsimp only at hle
      omega
    · rw [List.mem_singleton.mp hd]
      exact hc

/-- The upper case of a letter or digit consists of letters and digits, as far as ASCII goes. -/
theorem staysInside_toUppercase {c : Char} (h : isAlphanumeric c) :
    ∀ d ∈ toUppercase c, StaysInside d := by
  intro d hd
  unfold toUppercase at hd
  unfold isAlphanumeric at h
  split at hd
  · next hascii =>
    rw [if_pos hascii] at h
    rw [List.mem_singleton.mp hd]
    have hall : ∀ n < 128, (Char.ofNat n).isAlphanum →
        (Char.ofNat n).toUpper ≠ '"' ∧ (Char.ofNat n).toUpper ≠ ')' := by decide +kernel
    have hc := hall c.toNat hascii
    rw [Char.ofNat_toNat] at hc
    exact hc h
  · next hbeyond =>
    refine staysInside_mapped ⟨?_, ?_⟩ d hd <;> rintro rfl <;> exact hbeyond (by decide)

/-! ## Words -/

theorem mem_caseWords {previous : WordCase} {word cs : List Char} {found : List Char}
    (h : found ∈ caseWords previous word cs) : ∀ c ∈ found, c ∈ word ∨ c ∈ cs := by
  fun_induction caseWords previous word cs with
  | case1 => cases h
  | case2 previous word last =>
    intro letter hletter
    rw [List.mem_singleton.mp h, List.mem_reverse, List.mem_cons] at hletter
    rcases hletter with rfl | hword
    · exact .inr (List.mem_singleton_self _)
    · exact .inl hword
  | case3 previous word c next rest now _ ih =>
    intro letter hletter
    rcases List.mem_cons.mp h with rfl | h
    · rw [List.mem_reverse, List.mem_cons] at hletter
      rcases hletter with rfl | hword
      · exact .inr List.mem_cons_self
      · exact .inl hword
    · have hrest := (ih h letter hletter).resolve_left List.not_mem_nil
      exact .inr (List.mem_cons_of_mem _ hrest)
  | case4 previous word c next rest now _ _ ih =>
    intro letter hletter
    rcases List.mem_cons.mp h with rfl | h
    · exact .inl (List.mem_reverse.mp hletter)
    · rcases ih h letter hletter with hc | hrest
      · rw [List.mem_singleton.mp hc]
        exact .inr List.mem_cons_self
      · exact .inr (List.mem_cons_of_mem _ hrest)
  | case5 previous word c next rest now _ _ ih =>
    intro letter hletter
    rcases ih h letter hletter with hword | hrest
    · rcases List.mem_cons.mp hword with rfl | hword
      · exact .inr List.mem_cons_self
      · exact .inl hword
    · exact .inr (List.mem_cons_of_mem _ hrest)

theorem mem_alphanumericRuns {run cs found : List Char} (hrun : ∀ c ∈ run, isAlphanumeric c)
    (h : found ∈ alphanumericRuns run cs) : ∀ c ∈ found, isAlphanumeric c := by
  induction cs generalizing run with
  | nil =>
    rw [alphanumericRuns, List.mem_singleton] at h
    intro c hc
    exact hrun c (List.mem_reverse.mp (h ▸ hc))
  | cons next rest ih =>
    rw [alphanumericRuns] at h
    split at h
    · next hnext => exact ih (List.forall_mem_cons.mpr ⟨hnext, hrun⟩) h
    · rcases List.mem_cons.mp h with rfl | h
      · intro c hc
        exact hrun c (List.mem_reverse.mp hc)
      · exact ih (fun _ hmem ↦ absurd hmem List.not_mem_nil) h

theorem isAlphanumeric_of_mem_words {text : String} {word : List Char} (h : word ∈ words text) :
    ∀ c ∈ word, isAlphanumeric c := by
  obtain ⟨run, hrun, hword⟩ := List.mem_flatMap.mp h
  intro c hc
  rcases mem_caseWords hword c hc with hnil | hmem
  · cases hnil
  · exact mem_alphanumericRuns (fun _ hmem ↦ absurd hmem List.not_mem_nil) hrun c hmem

theorem mem_joinWords {words : List (List Char)} {c : Char} (h : c ∈ joinWords words) :
    c = '_' ∨ ∃ word ∈ words, c ∈ word := by
  induction words with
  | nil => cases h
  | cons word rest ih =>
    cases rest with
    | nil => exact .inr ⟨word, List.mem_cons_self, h⟩
    | cons next more =>
      rw [joinWords, List.mem_append, List.mem_cons] at h
      · rcases h with h | h | h
        · exact .inr ⟨word, List.mem_cons_self, h⟩
        · exact .inl h
        · rcases ih h with h | ⟨other, hother, h⟩
          · exact .inl h
          · exact .inr ⟨other, List.mem_cons_of_mem _ hother, h⟩
      · exact List.cons_ne_nil _ _

/-- Words in upper case neither quote nor close anything. -/
theorem staysInside_shoutyCase (text : String) : ∀ c ∈ (shoutyCase text).toList, StaysInside c := by
  intro c hc
  rw [shoutyCase, String.toList_ofList] at hc
  rcases mem_joinWords hc with rfl | ⟨word, hword, hmem⟩
  · exact ⟨by decide, by decide⟩
  · obtain ⟨plain, hplain, rfl⟩ := List.mem_map.mp hword
    obtain ⟨letter, hletter, hupper⟩ := List.mem_flatMap.mp hmem
    exact staysInside_toUppercase (isAlphanumeric_of_mem_words hplain letter hletter) c hupper

end Text

namespace Source

namespace TypeNames

/-! ## Expressions -/

/-- A text that stands inside a call without ending it, and is no string literal. -/
def IsConstant (text : String) : Prop := text.toList ≠ [] ∧ ∀ c ∈ text.toList, Text.StaysInside c

theorem isConstant_constantOf {name : TypeName} (h : (constantOf name).isEmpty = false) :
    IsConstant (constantOf name) := by
  refine ⟨fun hnil ↦ ?_, Text.staysInside_shoutyCase name.short⟩
  rw [String.toList_eq_nil_iff] at hnil
  rw [hnil] at h
  cases h

theorem IsConstant.ne_quote {text other : String} (h : IsConstant text) : text ≠ quote other := by
  rintro rfl
  have hfirst : '"' ∈ (quote other).toList := by simp [toList_quote]
  exact (h.2 _ hfirst).1 rfl

/-- Every expression is a constant given away once or the type's full name. -/
structure Separate (names : TypeNames) : Prop where
  /-- A type is written with its full name or a constant given away. -/
  written : ∀ entry ∈ names.expressions, entry.2 = quote entry.1.text ∨
    IsConstant entry.2 ∧ entry.2 ∈ names.constants
  unique : ∀ entry ∈ names.expressions, ∀ other ∈ names.expressions, entry.2 = other.2 →
    entry.1 = other.1

theorem separate_empty : empty.Separate where
  written := fun _ hmem ↦ absurd hmem List.not_mem_nil
  unique := fun _ hmem ↦ absurd hmem List.not_mem_nil

/-- A further type may be written with its full name, or with a new constant. -/
theorem Separate.extend {names : TypeNames} (h : names.Separate) {name : TypeName} {text : String}
    {constants : List String} (hkept : names.constants ⊆ constants)
    (htext : text = quote name.text ∨
      IsConstant text ∧ text ∈ constants ∧ text ∉ names.constants)
    (imports : List (String × List String)) :
    Separate ⟨names.expressions ++ [(name, text)], imports, constants⟩ := by
  have hnew : ∀ entry ∈ names.expressions, entry.2 = text → entry.1 = name := by
    intro entry hentry heq
    rcases h.written entry hentry with hold | ⟨hold, hgiven⟩
    · rcases htext with hfull | ⟨hconstant, -, -⟩
      · rw [hold, hfull] at heq
        exact congrArg TypeName.mk (quote_injective heq)
      · exact absurd (heq.symm.trans hold) hconstant.ne_quote
    · rcases htext with hfull | ⟨-, -, hunused⟩
      · exact absurd (heq.trans hfull) hold.ne_quote
      · exact absurd (heq ▸ hgiven) hunused
  constructor
  · intro entry hentry
    rcases List.mem_append.mp hentry with hold | hlast
    · exact (h.written entry hold).imp_right fun hconstant ↦
        ⟨hconstant.1, hkept hconstant.2⟩
    · rw [List.mem_singleton.mp hlast]
      exact htext.imp_right fun hconstant ↦ ⟨hconstant.1, hconstant.2.1⟩
  · intro entry hentry other hother heq
    rcases List.mem_append.mp hentry with hold | hlast <;>
      rcases List.mem_append.mp hother with hold' | hlast'
    · exact h.unique entry hold other hold' heq
    · rw [List.mem_singleton.mp hlast'] at heq ⊢
      exact hnew entry hold heq
    · rw [List.mem_singleton.mp hlast] at heq ⊢
      exact (hnew other hold' heq.symm).symm
    · rw [List.mem_singleton.mp hlast, List.mem_singleton.mp hlast']

theorem Separate.add {names : TypeNames} (h : names.Separate) (index : TypeIndex)
    (name : TypeName) : (TypeNames.add index names name).Separate := by
  unfold TypeNames.add
  dsimp only
  split
  · split
    · exact h.extend (List.Subset.refl _) (.inl rfl) _
    · next hnew =>
      simp only [Bool.or_eq_true, not_or, Bool.not_eq_true] at hnew
      have hunused : constantOf name ∉ names.constants := by simpa using hnew.2
      exact h.extend (List.subset_append_left _ _)
        (.inr ⟨isConstant_constantOf hnew.1, by simp, hunused⟩) _
  · exact h.extend (List.Subset.refl _) (.inl rfl) _

theorem separate_ofTypes (index : TypeIndex) (types : List TypeName) :
    (ofTypes index types).Separate := by
  have hfold (sorted : List TypeName) {names : TypeNames} (h : names.Separate) :
      (sorted.foldl (TypeNames.add index) names).Separate := by
    induction sorted generalizing names with
    | nil => exact h
    | cons name rest ih => exact ih (h.add index name)
  exact hfold _ separate_empty

theorem expression_eq (names : TypeNames) (name : TypeName) :
    names.expression name = quote name.text ∨
      (name, names.expression name) ∈ names.expressions := by
  unfold expression
  cases hget : Association.get? name names.expressions with
  | none => exact .inl rfl
  | some text => exact .inr (Association.mem_of_get?_eq_some hget)

theorem Separate.expression_eq {names : TypeNames} (h : names.Separate) (name : TypeName) :
    names.expression name = quote name.text ∨
      IsConstant (names.expression name) ∧ (name, names.expression name) ∈ names.expressions := by
  rcases TypeNames.expression_eq names name with hfull | hmem
  · exact .inl hfull
  · exact (h.written _ hmem).imp_right fun hconstant ↦ ⟨hconstant.1, hmem⟩

/-- A constant in front of a closing parenthesis is no string literal. -/
theorem IsConstant.append_ne {text other : String} (h : IsConstant text) {rest more : List Char} :
    text.toList ++ rest ≠ (quote other).toList ++ more := by
  intro heq
  rw [toList_quote, List.cons_append] at heq
  cases htext : text.toList with
  | nil => exact h.1 htext
  | cons c cs =>
    rw [htext, List.cons_append, List.cons.injEq] at heq
    exact (h.2 c (htext ▸ List.mem_cons_self)).1 heq.1

/-- The expression of a type in front of a closing parenthesis determines the type. -/
theorem Separate.expression_delimited {names : TypeNames} (h : names.Separate)
    {name other : TypeName} {rest more : List Char}
    (heq : (names.expression name).toList ++ ')' :: rest =
      (names.expression other).toList ++ ')' :: more) : name = other ∧ rest = more := by
  rcases h.expression_eq name with hname | ⟨hname, hmem⟩ <;>
    rcases h.expression_eq other with hother | ⟨hother, hmem'⟩
  · rw [hname, hother] at heq
    obtain ⟨htext, hrest⟩ := quote_delimited heq
    exact ⟨congrArg TypeName.mk htext, List.tail_eq_of_cons_eq hrest⟩
  · rw [hname] at heq
    exact absurd heq.symm hother.append_ne
  · rw [hother] at heq
    exact absurd heq hname.append_ne
  · have hinside {text : String} (hconstant : IsConstant text) : ')' ∉ text.toList :=
      fun hmem ↦ (hconstant.2 _ hmem).2 rfl
    obtain ⟨htext, hrest⟩ := eq_of_append_close (hinside hname) (hinside hother) heq
    exact ⟨h.unique _ hmem _ hmem' (String.toList_inj.mp htext), hrest⟩

end TypeNames

end Source

end ManifestTree
