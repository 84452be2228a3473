import Mathlib
import ManifestTree.Proofs.ImportedConstants

/-!
# Derived names as identifiers

Changing the case of a text keeps its letters and digits in their order and joins the words that
they make by underscores. So of an ASCII text the outcome has letters, digits and underscores alone,
and begins as the first letter or digit of the text does. The name of a generated function is an
identifier except where the words of its stem spell a reserved word. A constant is never a reserved
word, since these have lower case letters, but one that begins with a digit is no identifier. Texts
with characters beyond ASCII are left out.
-/

namespace ManifestTree

namespace Text

/-! ## Words -/

/-- The words of a run, put together again, are the run. -/
theorem flatten_caseWords (previous : WordCase) (word : List Char) {cs : List Char} (h : cs ≠ []) :
    (caseWords previous word cs).flatten = word.reverse ++ cs := by
  fun_induction caseWords previous word cs with
  | case1 => exact absurd rfl h
  | case2 previous word c => simp
  | case3 previous word c next rest now _ ih => simp [ih]
  | case4 previous word c next rest now _ _ ih => simp [ih]
  | case5 previous word c next rest now _ _ ih => simp [ih]

/-- No word is empty: one that ends before the character at hand has the upper case letter in front
of that character. -/
theorem ne_nil_of_mem_caseWords {previous : WordCase} {word cs found : List Char}
    (hword : previous = .upper → word ≠ []) (h : found ∈ caseWords previous word cs) :
    found ≠ [] := by
  fun_induction caseWords previous word cs with
  | case1 => cases h
  | case2 previous word c =>
    rw [List.mem_singleton.mp h]
    simp
  | case3 previous word c next rest now _ ih =>
    rcases List.mem_cons.mp h with rfl | h
    · simp
    · exact ih (fun hupper ↦ absurd hupper (by decide)) h
  | case4 previous word c next rest now _ hsplit ih =>
    rcases List.mem_cons.mp h with rfl | h
    · simp only [Bool.and_eq_true, decide_eq_true_eq] at hsplit
      rw [ne_eq, List.reverse_eq_nil_iff]
      exact hword hsplit.1.1
    · exact ih (fun _ ↦ List.cons_ne_nil _ _) h
  | case5 previous word c next rest now _ _ ih => exact ih (fun _ ↦ List.cons_ne_nil _ _) h

theorem flatten_alphanumericRuns (run cs : List Char) :
    (alphanumericRuns run cs).flatten = run.reverse ++ cs.filter isAlphanumeric := by
  induction cs generalizing run with
  | nil => simp [alphanumericRuns]
  | cons c rest ih =>
    rw [alphanumericRuns]
    split
    · next hc => simp [ih, hc]
    · next hc => simp [ih, hc]

/-- The words of a text hold its letters and digits in order. -/
theorem flatten_words (text : String) :
    (words text).flatten = text.toList.filter isAlphanumeric := by
  have hrun (run : List Char) : (caseWords .start [] run).flatten = run := by
    by_cases h : run = []
    · rw [h]
      rfl
    · rw [flatten_caseWords _ _ h]
      rfl
  have hruns (runs : List (List Char)) :
      (runs.flatMap (caseWords .start [])).flatten = runs.flatten := by
    induction runs with
    | nil => rfl
    | cons run rest ih => rw [List.flatMap_cons, List.flatten_append, hrun, ih, List.flatten_cons]
  rw [words, hruns, flatten_alphanumericRuns]
  rfl

theorem ne_nil_of_mem_words {text : String} {word : List Char} (h : word ∈ words text) :
    word ≠ [] := by
  obtain ⟨run, -, hword⟩ := List.mem_flatMap.mp h
  refine ne_nil_of_mem_caseWords ?_ hword
  rintro ⟨⟩

/-- Words joined by underscores begin as the first word does. -/
theorem head?_joinWords {words : List (List Char)} (h : ∀ word ∈ words, word ≠ []) :
    (joinWords words).head? = words.flatten.head? := by
  cases words with
  | nil => rfl
  | cons word rest =>
    obtain ⟨c, more, rfl⟩ := List.exists_cons_of_ne_nil (h word List.mem_cons_self)
    cases rest <;> rfl

/-! ## Changing the case of ASCII text -/

def IsAscii (text : String) : Prop := ∀ c ∈ text.toList, c.toNat < 128

instance (text : String) : Decidable (IsAscii text) :=
  decidable_of_iff ((text.toList.all fun c ↦ decide (c.toNat < 128)) = true)
    (by simp only [List.all_eq_true, decide_eq_true_eq, IsAscii])

theorem isAlphanumeric_ascii {c : Char} (hc : c.toNat < 128) :
    isAlphanumeric c = c.isAlphanum := if_pos hc

theorem mem_of_mem_words {text : String} {word : List Char} (h : word ∈ words text) {c : Char}
    (hc : c ∈ word) : c ∈ text.toList ∧ isAlphanumeric c := by
  have hmem : c ∈ (words text).flatten := List.mem_flatten.mpr ⟨word, h, hc⟩
  rwa [flatten_words, List.mem_filter] at hmem

theorem lowerWord_ascii {word : List Char} (h : ∀ c ∈ word, c.toNat < 128) :
    lowerWord word = word.map Char.toLower := by
  fun_induction lowerWord word with
  | case1 => rfl
  | case2 => exact absurd (h _ (List.mem_singleton_self _)) (by decide)
  | case3 c rest _ ih =>
    obtain ⟨hc, hrest⟩ := List.forall_mem_cons.mp h
    rw [toLowercase, if_pos hc, ih hrest]
    rfl

theorem upperWord_ascii {word : List Char} (h : ∀ c ∈ word, c.toNat < 128) :
    upperWord word = word.map Char.toUpper := by
  induction word with
  | nil => rfl
  | cons c rest ih =>
    obtain ⟨hc, hrest⟩ := List.forall_mem_cons.mp h
    rw [upperWord, List.flatMap_cons, ← upperWord, toUppercase, if_pos hc, ih hrest]
    rfl

/-- The words of a text with each letter and digit changed, joined by underscores. -/
def changeCase (change : Char → Char) (text : String) : String :=
  String.ofList (joinWords ((words text).map (List.map change)))

/-- A conversion that changes the characters of ASCII words one by one does so in a text. -/
theorem joinWords_ascii {convert : List Char → List Char} {change : Char → Char}
    (hconvert : ∀ word : List Char, (∀ c ∈ word, c.toNat < 128) → convert word = word.map change)
    {text : String} (h : IsAscii text) :
    String.ofList (joinWords ((words text).map convert)) = changeCase change text := by
  have hwords : (words text).map convert = (words text).map (List.map change) :=
    List.map_congr_left fun word hword ↦
      hconvert word fun c hc ↦ h c (mem_of_mem_words hword hc).1
  rw [hwords, changeCase]

theorem snakeCase_ascii {text : String} (h : IsAscii text) :
    snakeCase text = changeCase Char.toLower text :=
  joinWords_ascii (fun _ ↦ lowerWord_ascii) h

theorem shoutyCase_ascii {text : String} (h : IsAscii text) :
    shoutyCase text = changeCase Char.toUpper text :=
  joinWords_ascii (fun _ ↦ upperWord_ascii) h

/-- Letters become letters and digits become digits, as far as ASCII goes. -/
def KeepsSort (change : Char → Char) : Prop :=
  ∀ c : Char, c.toNat < 128 → c.isAlphanum →
    (change c).isAlphanum ∧ (change c).isAlpha = c.isAlpha

/-- It is enough to keep letters apart from the other characters and to change letters alone. -/
theorem keepsSort_of_isAlpha {change : Char → Char} (halpha : ∀ c, (change c).isAlpha = c.isAlpha)
    (hother : ∀ c, ¬ c.isAlpha → change c = c) : KeepsSort change := by
  intro c _ hletter
  refine ⟨?_, halpha c⟩
  by_cases hc : c.isAlpha
  · rw [Char.isAlphanum, halpha, hc]
    rfl
  · rwa [hother c hc]

theorem keepsSort_toLower : KeepsSort Char.toLower :=
  keepsSort_of_isAlpha Char.isAlpha_toLower_eq_isAlpha fun _ hc ↦
    Char.toLower_eq_of_not_isUpper fun hupper ↦ hc (Bool.or_eq_true_iff.mpr (.inl hupper))

theorem keepsSort_toUpper : KeepsSort Char.toUpper :=
  keepsSort_of_isAlpha Char.isAlpha_toUpper_eq_isAlpha fun _ hc ↦
    Char.toUpper_eq_of_not_isLower fun hlower ↦ hc (Bool.or_eq_true_iff.mpr (.inr hlower))

section Changing

variable {change : Char → Char} {text : String}

theorem mem_changeCase (h : IsAscii text) {d : Char} (hd : d ∈ (changeCase change text).toList) :
    d = '_' ∨ ∃ c ∈ text.toList, c.isAlphanum ∧ d = change c := by
  rw [changeCase, String.toList_ofList] at hd
  rcases mem_joinWords hd with rfl | ⟨word, hword, hd⟩
  · exact .inl rfl
  · obtain ⟨plain, hplain, rfl⟩ := List.mem_map.mp hword
    obtain ⟨c, hc, rfl⟩ := List.mem_map.mp hd
    obtain ⟨htext, hletter⟩ := mem_of_mem_words hplain hc
    rw [isAlphanumeric_ascii (h c htext)] at hletter
    exact .inr ⟨c, htext, hletter, rfl⟩

/-- The changed text begins with what the first letter or digit becomes. -/
theorem head?_changeCase (change : Char → Char) (h : IsAscii text) :
    (changeCase change text).toList.head? = (text.toList.find? Char.isAlphanum).map change := by
  have hne : ∀ word ∈ (words text).map (List.map change), word ≠ [] := by
    intro word hword
    obtain ⟨plain, hplain, rfl⟩ := List.mem_map.mp hword
    simpa using ne_nil_of_mem_words hplain
  have hfilter : text.toList.filter isAlphanumeric = text.toList.filter Char.isAlphanum :=
    List.filter_congr fun c hc ↦ isAlphanumeric_ascii (h c hc)
  rw [changeCase, String.toList_ofList, head?_joinWords hne, ← List.map_flatten, flatten_words,
    hfilter, List.head?_map, List.head?_filter]

end Changing

end Text

namespace Source

open Text

/-! ## Identifiers -/

def keywords : List String :=
  ["as", "async", "await", "break", "const", "continue", "crate", "dyn", "else", "enum", "extern",
    "false", "fn", "for", "if", "impl", "in", "let", "loop", "match", "mod", "move", "mut", "pub",
    "ref", "return", "self", "Self", "static", "struct", "super", "trait", "true", "type", "unsafe",
    "use", "where", "while", "abstract", "become", "box", "do", "final", "gen", "macro", "override",
    "priv", "try", "typeof", "unsized", "virtual", "yield"]

/-- A name of the target language: a letter or an underscore, then letters, digits and underscores,
but no single underscore and no reserved word. -/
structure IsIdentifier (name : String) : Prop where
  first : ∃ c ∈ name.toList.head?, c.isAlpha ∨ c = '_'
  characters : ∀ c ∈ name.toList, c.isAlphanum ∨ c = '_'
  notUnderscore : name ≠ "_"
  notKeyword : name ∉ keywords

instance (name : String) : Decidable (IsIdentifier name) :=
  decidable_of_iff ((name.toList.head?.any fun c ↦ c.isAlpha || c == '_') = true ∧
    (name.toList.all fun c ↦ c.isAlphanum || c == '_') = true ∧ name ≠ "_" ∧ name ∉ keywords) <| by
      simp only [Option.any_eq_true, List.all_eq_true, Bool.or_eq_true, beq_iff_eq]
      constructor
      · rintro ⟨hfirst, hcharacters, hunderscore, hkeyword⟩
        exact ⟨hfirst, hcharacters, hunderscore, hkeyword⟩
      · exact fun h ↦ ⟨h.first, h.characters, h.notUnderscore, h.notKeyword⟩

theorem exists_isLower_of_mem_keywords {word : String} (h : word ∈ keywords) :
    ∃ c ∈ word.toList, c.isLower := by
  have hall : (keywords.all fun word ↦ word.toList.any Char.isLower) = true := by decide
  exact List.any_eq_true.mp (List.all_eq_true.mp hall word h)

theorem first_not_digit_of_mem_keywords {word : String} (h : word ∈ keywords) :
    word.toList.head?.any Char.isDigit = false := by
  have hall : (keywords.all fun word ↦ !word.toList.head?.any Char.isDigit) = true := by
    decide
  simpa only [Bool.not_eq_true'] using List.all_eq_true.mp hall word h

theorem underscore_not_mem_of_mem_keywords {word : String} (h : word ∈ keywords) :
    '_' ∉ word.toList := by
  have hall : (keywords.all fun word ↦ !word.toList.contains '_') = true := by decide
  simpa using List.all_eq_true.mp hall word h

section Changed

variable {change : Char → Char} {text : String}

theorem characters_changeCase (hchange : KeepsSort change) (h : IsAscii text) :
    ∀ c ∈ (changeCase change text).toList, c.isAlphanum ∨ c = '_' := by
  intro d hd
  rcases mem_changeCase h hd with rfl | ⟨c, hc, hletter, rfl⟩
  · exact .inr rfl
  · exact .inl (hchange c (h c hc) hletter).1

/-- A text in another case that is not reserved is an identifier when the first letter or digit is a
letter. -/
theorem isIdentifier_changeCase_iff (hchange : KeepsSort change) (h : IsAscii text)
    (hkeyword : changeCase change text ∉ keywords) : IsIdentifier (changeCase change text) ↔
      ∃ c ∈ text.toList.find? Char.isAlphanum, c.isAlpha := by
  have hfound {c : Char} (hc : c ∈ text.toList.find? Char.isAlphanum) :=
    hchange c (h c (List.mem_of_find?_eq_some hc)) (List.find?_some hc)
  have hhead := head?_changeCase change h
  constructor
  · intro hname
    obtain ⟨d, hd, hfirst⟩ := hname.first
    rw [hhead] at hd
    obtain ⟨c, hc, rfl⟩ := Option.map_eq_some_iff.mp hd
    obtain ⟨hletter, hsort⟩ := hfound hc
    refine ⟨c, hc, ?_⟩
    rcases hfirst with halpha | hunderscore
    · rwa [← hsort]
    · rw [hunderscore] at hletter
      cases hletter
  · rintro ⟨c, hc, halpha⟩
    obtain ⟨hletter, hsort⟩ := hfound hc
    have hfirst : change c ∈ (changeCase change text).toList.head? := by
      rw [hhead, hc]
      rfl
    refine ⟨⟨change c, hfirst, .inl (hsort.trans halpha)⟩, characters_changeCase hchange h, ?_,
      hkeyword⟩
    intro hunderscore
    rw [hunderscore] at hfirst
    have hsame : '_' = change c := Option.some.inj hfirst
    rw [← hsame] at hletter
    cases hletter

end Changed

/-! ## Names of functions -/

theorem isIdentifier_default : IsIdentifier Options.defaultFunctionName := by
  decide

/-- Behind the word for a missing name and an underscore anything may follow. -/
theorem isIdentifier_default_append {name : String}
    (h : ∀ c ∈ name.toList, c.isAlphanum ∨ c = '_') :
    IsIdentifier (Options.defaultFunctionName ++ "_" ++ name) := by
  have htext : (Options.defaultFunctionName ++ "_" ++ name).toList =
      "build_".toList ++ name.toList := by
    rw [String.toList_append]
    rfl
  constructor
  · rw [htext]
    exact ⟨'b', rfl, .inl rfl⟩
  · rw [htext]
    have hfront : IsIdentifier "build_" := by decide
    exact List.forall_mem_append.mpr ⟨hfront.characters, h⟩
  · intro hunderscore
    rw [hunderscore] at htext
    cases htext
  · intro hkeyword
    refine underscore_not_mem_of_mem_keywords hkeyword ?_
    rw [htext]
    exact List.mem_append_left _ (by decide)

/-- The name of a function is an identifier unless the words of its stem spell a reserved word. No
reserved word begins with a digit, and a stem without words gives the word for a missing name. -/
theorem isIdentifier_functionNameFor_iff {stem : String} (h : IsAscii stem) :
    IsIdentifier (Options.functionNameFor stem) ↔ snakeCase stem ∉ keywords := by
  rw [Options.functionNameFor, snakeCase_ascii h]
  have hhead := head?_changeCase Char.toLower h
  cases hfind : stem.toList.find? Char.isAlphanum with
  | none =>
    rw [hfind, Option.map_none] at hhead
    have hempty : changeCase Char.toLower stem = "" :=
      String.toList_eq_nil_iff.mp (List.head?_eq_none_iff.mp hhead)
    rw [hempty]
    exact iff_of_true isIdentifier_default (by decide)
  | some c =>
    have hletter := List.find?_some hfind
    obtain ⟨hlower, hsort⟩ :=
      keepsSort_toLower c (h c (List.mem_of_find?_eq_some hfind)) hletter
    rw [hfind, Option.map_some] at hhead
    rw [hhead]
    dsimp only
    split
    · next hdigit =>
      have hkeyword : changeCase Char.toLower stem ∉ keywords := by
        intro hmem
        have hfirst := first_not_digit_of_mem_keywords hmem
        rw [hhead, Option.any_some, hdigit] at hfirst
        cases hfirst
      exact iff_of_true
        (isIdentifier_default_append (characters_changeCase keepsSort_toLower h)) hkeyword
    · next hdigit =>
      refine ⟨IsIdentifier.notKeyword, fun hkeyword ↦ ?_⟩
      rw [isIdentifier_changeCase_iff keepsSort_toLower h hkeyword]
      rw [Char.isAlphanum, Bool.or_eq_true, or_iff_left hdigit, hsort] at hlower
      exact ⟨c, hfind, hlower⟩

/-! ## Constants -/

/-- Every reserved word has a lower case letter, and a constant has none. -/
theorem constant_not_mem_keywords {text : String} (h : IsAscii text) :
    changeCase Char.toUpper text ∉ keywords := by
  intro hkeyword
  obtain ⟨d, hd, hlower⟩ := exists_isLower_of_mem_keywords hkeyword
  rcases mem_changeCase h hd with rfl | ⟨c, hc, hletter, rfl⟩
  · cases hlower
  · rw [Char.isLower_toUpper_eq_false] at hlower
    cases hlower

theorem isAscii_short {type : TypeName} (h : IsAscii type.text) : IsAscii type.short := by
  intro c hc
  rw [TypeName.short, String.toList_ofList, List.mem_reverse] at hc
  exact h c (List.mem_reverse.mp ((List.takeWhile_sublist _).mem hc))

theorem isIdentifier_constantOf_iff {type : TypeName} (h : IsAscii type.text) :
    IsIdentifier (TypeNames.constantOf type) ↔
      ∃ c ∈ type.short.toList.find? Char.isAlphanum, c.isAlpha := by
  have hshort := isAscii_short h
  rw [TypeNames.constantOf, shoutyCase_ascii hshort]
  exact isIdentifier_changeCase_iff keepsSort_toUpper hshort (constant_not_mem_keywords hshort)

theorem exists_type_of_imports {index : TypeIndex} {types : List TypeName}
    {module constant : String} (h : (TypeNames.ofTypes index types).Imports module constant) :
    ∃ type ∈ types, index.moduleOf type = some module ∧ constant = TypeNames.constantOf type := by
  have hrecords := TypeNames.records_ofTypes index types
  obtain ⟨type, hmem, hconstant, hmodule⟩ := (hrecords.imported module constant).mp h
  have hsorted : type ∈ TypeName.sorted types := hrecords.keys ▸ List.mem_map_of_mem hmem
  exact ⟨type, ((TypeName.sorted_spec types).2 type).mp hsorted, hmodule, hconstant⟩

/-- Of ASCII stems and types: the name derived for the function is an identifier exactly when the
words of the stem spell no reserved word, and every constant that is imported belongs to a type of
the module and is an identifier exactly when the first letter or digit of the type's short name is
a letter. -/
theorem derived_names_identifiers (options : Options) (index : TypeIndex) {types : List TypeName}
    (htypes : ∀ type ∈ types, IsAscii type.text) :
    (∀ stem, IsAscii stem → (IsIdentifier (options.withFunctionFor stem).functionName ↔
      snakeCase stem ∉ keywords)) ∧
    ∀ module constant, (TypeNames.ofTypes index types).Imports module constant →
      ∃ type ∈ types, index.moduleOf type = some module ∧ constant = TypeNames.constantOf type ∧
        (IsIdentifier constant ↔ ∃ c ∈ type.short.toList.find? Char.isAlphanum, c.isAlpha) := by
  constructor
  · intro stem hstem
    dsimp only [Options.withFunctionFor]
    exact isIdentifier_functionNameFor_iff hstem
  · intro module constant h
    obtain ⟨type, hmem, hmodule, rfl⟩ := exists_type_of_imports h
    exact ⟨type, hmem, hmodule, rfl, isIdentifier_constantOf_iff (htypes type hmem)⟩

/-- A function named after a stem that begins with a digit, and the constant of a pod. -/
theorem derived_names_identifiers_pod :
    let index := TypeIndex.empty.setModule ⟨"core.Pod"⟩ "core"
    let types : List TypeName := [⟨"core.Pod"⟩]
    (∀ type ∈ types, IsAscii type.text) ∧
      (Options.default.withFunctionFor "01-app").functionName = "build_01_app" ∧
      IsIdentifier "build_01_app" ∧
      (TypeNames.ofTypes index types).imports = [("core", ["POD"])] ∧ IsIdentifier "POD" := by
  intro index types
  have htypes : ∀ type ∈ types, IsAscii type.text := by
    rw [List.forall_mem_singleton]
    decide
  have hname : (Options.default.withFunctionFor "01-app").functionName = "build_01_app" := by
    decide
  have himports : (TypeNames.ofTypes index types).imports = [("core", ["POD"])] := by
    decide
  obtain ⟨hfunction, hconstants⟩ := derived_names_identifiers Options.default index htypes
  refine ⟨htypes, hname, ?_, himports, ?_⟩
  · rw [← hname]
    exact (hfunction "01-app" (by decide)).mpr (by decide)
  · have hmem : (TypeNames.ofTypes index types).Imports "core" "POD" := by
      rw [TypeNames.Imports, himports]
      exact ⟨["POD"], List.mem_singleton_self _, List.mem_singleton_self _⟩
    obtain ⟨type, htype, -, -, hiff⟩ := hconstants "core" "POD" hmem
    rw [hiff, List.mem_singleton.mp htype]
    exact ⟨'P', by decide, by decide⟩

/-- A stem may be a reserved word, and a short name may begin with a digit. -/
theorem derived_names_not_identifiers :
    let index := TypeIndex.empty.setModule ⟨"auth.2fa"⟩ "auth"
    let types : List TypeName := [⟨"auth.2fa"⟩]
    (Options.default.withFunctionFor "match").functionName = "match" ∧ ¬ IsIdentifier "match" ∧
      (TypeNames.ofTypes index types).imports = [("auth", ["2FA"])] ∧ ¬ IsIdentifier "2FA" := by
  intro index types
  refine ⟨by decide, fun h ↦ h.notKeyword (by decide), by decide, fun h ↦ ?_⟩
  obtain ⟨c, ⟨⟩, hc⟩ := h.first
  revert hc
  decide

end Source

end ManifestTree
