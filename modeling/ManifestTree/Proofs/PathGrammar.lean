import ManifestTree.Failure
import ManifestTree.Proofs.QuotedText
import Mathlib.Algebra.Group.Nat.Defs
import Mathlib.Data.List.Forall2
import Mathlib.Data.List.TakeWhile

/-!
# Which texts denote field paths

Between its dots a path text has parts, and each part is a key without an opening bracket followed
by bracketed indices. `Denotes` is this grammar, with the steps that a text stands for; reading
accepts exactly what it describes and builds exactly these steps. Any other text is refused as a
whole. Which of its faults is reported is not described here.
-/

namespace ManifestTree.FieldPath

open Source

/-! ## The grammar -/

/-- Decimal digits, at least one, behind an optional plus sign, denote an index below `2 ^ 64`. -/
def IsIndex (cs : List Char) (n : Nat) : Prop :=
  ∃ digits, (cs = digits ∨ cs = '+' :: digits) ∧ digits ≠ [] ∧ (∀ c ∈ digits, c.isDigit) ∧
    Nat.ofDigitChars 10 digits 0 = n ∧ n < 2 ^ 64

/-- Bracket groups one behind the other, with their indices. -/
inductive Groups : List Char → List Nat → Prop where
  | nil : Groups [] []
  | cons {group rest : List Char} {n : Nat} {more : List Nat} : IsIndex group n →
      Groups rest more → Groups ('[' :: (group ++ ']' :: rest)) (n :: more)

def keyStep (key : List Char) : List Step :=
  if key.isEmpty then [] else [.key (String.ofList key)]

/-- A part between dots and its steps: a key and bracket groups, not both missing. -/
def IsPart (cs : List Char) (steps : List Step) : Prop :=
  ∃ key groups indices, cs = key ++ groups ∧ cs ≠ [] ∧ '[' ∉ key ∧ Groups groups indices ∧
    steps = keyStep key ++ indices.map Step.index

/-- A text and the path that it denotes: parts with dots between them, none in the empty text. -/
def Denotes (text : String) (path : FieldPath) : Prop :=
  ∃ pieces steps, text.toList = ['.'].intercalate pieces ∧ (∀ piece ∈ pieces, '.' ∉ piece) ∧
    List.Forall₂ IsPart pieces steps ∧ path.steps = steps.flatten

/-! ## Pieces between separators -/

section Pieces

variable {separator : Char}

theorem splitAt_of_not_mem {cs : List Char} (h : separator ∉ cs) :
    splitAt separator cs = [cs] := by
  induction cs with
  | nil => rfl
  | cons c rest ih =>
    rw [splitAt, if_neg (List.ne_of_not_mem_cons h).symm, ih (List.not_mem_of_not_mem_cons h)]

theorem splitAt_append {front : List Char} (h : separator ∉ front) (back : List Char) :
    splitAt separator (front ++ separator :: back) = front :: splitAt separator back := by
  induction front with
  | nil => rw [List.nil_append, splitAt, if_pos rfl]
  | cons c rest ih =>
    rw [List.cons_append, splitAt, if_neg (List.ne_of_not_mem_cons h).symm,
      ih (List.not_mem_of_not_mem_cons h)]

/-- Pieces without the separator are found again between separators. -/
theorem splitAt_intercalate {pieces : List (List Char)} (hne : pieces ≠ [])
    (h : ∀ piece ∈ pieces, separator ∉ piece) :
    splitAt separator ([separator].intercalate pieces) = pieces := by
  induction pieces with
  | nil => exact absurd rfl hne
  | cons piece rest ih =>
    obtain ⟨hpiece, hrest⟩ := List.forall_mem_cons.mp h
    cases rest with
    | nil => rw [List.intercalate_singleton, splitAt_of_not_mem hpiece]
    | cons next more =>
      rw [List.intercalate_cons_cons, List.append_assoc, List.singleton_append,
        splitAt_append hpiece, ih (List.cons_ne_nil _ _) hrest]

/-- What is between separators: pieces without them, which make the text again. -/
theorem splitAt_spec (separator : Char) (cs : List Char) :
    splitAt separator cs ≠ [] ∧ [separator].intercalate (splitAt separator cs) = cs ∧
      ∀ piece ∈ splitAt separator cs, separator ∉ piece := by
  induction cs with
  | nil => exact ⟨List.cons_ne_nil _ _, rfl, by simp [splitAt]⟩
  | cons c rest ih =>
    obtain ⟨hne, hjoin, hfree⟩ := ih
    obtain ⟨piece, pieces, hsplit⟩ := List.exists_cons_of_ne_nil hne
    rw [hsplit] at hjoin hfree
    rw [splitAt, hsplit]
    split
    · next hc =>
      refine ⟨List.cons_ne_nil _ _, ?_, List.forall_mem_cons.mpr ⟨List.not_mem_nil, hfree⟩⟩
      rw [List.intercalate_cons_cons, hjoin, hc]
      rfl
    · next hc =>
      obtain ⟨hpiece, hpieces⟩ := List.forall_mem_cons.mp hfree
      refine ⟨List.cons_ne_nil _ _, ?_, List.forall_mem_cons.mpr
        ⟨List.not_mem_cons_of_ne_of_not_mem (Ne.symm hc) hpiece, hpieces⟩⟩
      rw [← hjoin]
      cases pieces with
      | nil => rw [List.intercalate_singleton, List.intercalate_singleton]
      | cons next more =>
        rw [List.intercalate_cons_cons, List.intercalate_cons_cons, List.cons_append,
          List.cons_append]

end Pieces

/-! ## Indices -/

theorem digitsValue_eq (digits : List Char) :
    digitsValue digits = Nat.ofDigitChars 10 digits 0 := by
  rw [digitsValue, Nat.ofDigitChars_eq_foldl]
  simp only [Nat.mul_comm]

theorem IsIndex.digits_of_ne {cs : List Char} {n : Nat} (h : IsIndex cs n)
    (hplus : ∀ rest, cs ≠ '+' :: rest) :
    cs ≠ [] ∧ (∀ c ∈ cs, c.isDigit) ∧ Nat.ofDigitChars 10 cs 0 = n ∧ n < 2 ^ 64 := by
  obtain ⟨digits, rfl | rfl, hdigits⟩ := h
  · exact hdigits
  · exact absurd rfl (hplus digits)

theorem IsIndex.digits_of_plus {rest : List Char} {n : Nat} (h : IsIndex ('+' :: rest) n) :
    rest ≠ [] ∧ (∀ c ∈ rest, c.isDigit) ∧ Nat.ofDigitChars 10 rest 0 = n ∧ n < 2 ^ 64 := by
  obtain ⟨digits, heq | heq, hdigits⟩ := h
  · subst heq
    exact absurd (hdigits.2.1 '+' List.mem_cons_self) (by decide)
  · rw [List.tail_eq_of_cons_eq heq]
    exact hdigits

theorem indexOf?_eq_some_iff (cs : List Char) (n : Nat) : indexOf? cs = some n ↔ IsIndex cs n := by
  have hread (digits : List Char) :
      (if digits.isEmpty ∨ ¬ digits.all Char.isDigit ∨ digitsValue digits ≥ Nat.pow 2 64 then none
        else some (digitsValue digits)) = some n ↔
      digits ≠ [] ∧ (∀ c ∈ digits, c.isDigit) ∧ Nat.ofDigitChars 10 digits 0 = n ∧
        n < 2 ^ 64 := by
    rw [digitsValue_eq, Nat.pow_eq]
    constructor
    · intro h
      split at h
      · cases h
      · next hvalid =>
        rw [Option.some.injEq] at h
        simp only [List.isEmpty_iff, not_or, not_not, List.all_eq_true, ge_iff_le,
          Nat.not_le] at hvalid
        exact ⟨hvalid.1, hvalid.2.1, h, h ▸ hvalid.2.2⟩
    · rintro ⟨hne, hdigits, rfl, hlt⟩
      rw [if_neg]
      simp only [List.isEmpty_iff, not_or, not_not, List.all_eq_true, ge_iff_le, Nat.not_le]
      exact ⟨hne, hdigits, hlt⟩
  unfold indexOf?
  dsimp only
  split
  · next rest =>
    exact (hread rest).trans ⟨fun h ↦ ⟨rest, .inr rfl, h⟩, fun h ↦ h.digits_of_plus⟩
  · next hplus =>
    exact (hread cs).trans ⟨fun h ↦ ⟨cs, .inl rfl, h⟩, fun h ↦ h.digits_of_ne hplus⟩

theorem IsIndex.not_mem {cs : List Char} {n : Nat} (h : IsIndex cs n) {c : Char}
    (hdigit : c.isDigit = false) (hplus : c ≠ '+') : c ∉ cs := by
  obtain ⟨digits, hcs, -, hall, -⟩ := h
  have hdigits : c ∉ digits := fun hmem ↦ by
    rw [hall c hmem] at hdigit
    cases hdigit
  rcases hcs with rfl | rfl
  · exact hdigits
  · exact List.not_mem_cons_of_ne_of_not_mem hplus hdigits

/-! ## Bracket groups -/

theorem groups_head {cs : List Char} {indices : List Nat} (h : Groups cs indices) :
    cs = [] ∧ indices = [] ∨ ∃ rest, cs = '[' :: rest := by
  cases h with
  | nil => exact .inl ⟨rfl, rfl⟩
  | cons _ _ => exact .inr ⟨_, rfl⟩

/-- A text that opens with a bracket has groups only if the bracket is closed behind an index. -/
theorem groups_close_iff {group rest : List Char} (hgroup : ']' ∉ group) (indices : List Nat) :
    Groups ('[' :: (group ++ ']' :: rest)) indices ↔
      ∃ n more, IsIndex group n ∧ Groups rest more ∧ indices = n :: more := by
  constructor
  · intro h
    generalize htext : '[' :: (group ++ ']' :: rest) = cs at h
    cases h with
    | nil => cases htext
    | cons hindex hrest =>
      obtain ⟨rfl, rfl⟩ := eq_of_append_close hgroup (hindex.not_mem (by decide) (by decide))
        (List.tail_eq_of_cons_eq htext)
      exact ⟨_, _, hindex, hrest, rfl⟩
  · rintro ⟨n, more, hindex, hrest, rfl⟩
    exact .cons hindex hrest

theorem not_groups_open {group : List Char} (hgroup : ']' ∉ group) (indices : List Nat) :
    ¬ Groups ('[' :: group) indices := by
  intro h
  generalize htext : '[' :: group = cs at h
  cases h with
  | nil => cases htext
  | cons _ _ =>
    rw [List.tail_eq_of_cons_eq htext] at hgroup
    exact hgroup (List.mem_append_right _ List.mem_cons_self)

theorem eq_ok_of_map {ε α β : Type} {f : α → β} {part : Except ε α} {result : β}
    (h : part.map f = .ok result) : ∃ inner, part = .ok inner ∧ f inner = result := by
  cases part with
  | error fault => cases h
  | ok inner => exact ⟨inner, rfl, Except.ok.inj h⟩

/-- What has been read of a group that is still open. -/
def opened : Option (List Char) → List Char
  | none => []
  | some group => '[' :: group.reverse

/-- Reading goes on as if it had not yet begun with the group that is open. -/
theorem indices_eq_ok_iff (inside : Option (List Char)) (cs : List Char)
    (hinside : ']' ∉ opened inside) (steps : List Step) : indices inside cs = .ok steps ↔
      ∃ ns, Groups (opened inside ++ cs) ns ∧ steps = ns.map Step.index := by
  induction cs generalizing inside steps with
  | nil =>
    rw [List.append_nil]
    cases inside with
    | none =>
      constructor
      · intro h
        cases h
        exact ⟨[], .nil, rfl⟩
      · rintro ⟨ns, hgroups, rfl⟩
        cases hgroups
        rfl
    | some group =>
      constructor
      · intro h
        cases h
      · rintro ⟨ns, hgroups, -⟩
        exact absurd hgroups (not_groups_open (List.not_mem_of_not_mem_cons hinside) ns)
  | cons c rest ih =>
    cases inside with
    | none =>
      rw [indices]
      split
      · next hopen =>
        rw [hopen]
        exact ih (some []) (by decide) steps
      · next hopen =>
        constructor
        · intro h
          cases h
        · rintro ⟨ns, hgroups, -⟩
          rcases groups_head hgroups with ⟨hnil, -⟩ | ⟨more, heq⟩
          · cases hnil
          · exact absurd (List.cons.inj heq).1 hopen
    | some group =>
      have hgroup : ']' ∉ group.reverse := List.not_mem_of_not_mem_cons hinside
      rw [indices]
      split
      · next hclose =>
        subst hclose
        rw [opened, List.cons_append,
          ← exists_congr fun ns ↦ and_congr_left' (groups_close_iff hgroup ns).symm]
        cases hindex : indexOf? group.reverse with
        | none =>
          constructor
          · intro h
            cases h
          · rintro ⟨_, ⟨n, _, hn, -⟩, -⟩
            rw [(indexOf?_eq_some_iff _ _).mpr hn] at hindex
            cases hindex
        | some position =>
          have hposition := (indexOf?_eq_some_iff _ _).mp hindex
          constructor
          · intro h
            obtain ⟨tail, htail, rfl⟩ := eq_ok_of_map h
            obtain ⟨more, hmore, rfl⟩ := (ih none (by decide) tail).mp htail
            exact ⟨_, ⟨position, more, hposition, hmore, rfl⟩, rfl⟩
          · rintro ⟨_, ⟨n, more, hn, hmore, rfl⟩, rfl⟩
            obtain rfl : position = n :=
              Option.some.inj (hindex.symm.trans ((indexOf?_eq_some_iff _ _).mpr hn))
            change (indices none rest).map _ = _
            rw [(ih none (by decide) _).mpr ⟨more, hmore, rfl⟩]
            rfl
      · next hclose =>
        have hmore : opened (some (c :: group)) ++ rest = opened (some group) ++ c :: rest := by
          simp [opened]
        rw [← hmore]
        refine ih (some (c :: group)) ?_ steps
        simpa [opened, Ne.symm hclose] using hgroup

/-! ## Parts -/

theorem takeWhile_key {groups : List Char} {ns : List Nat} (h : Groups groups ns)
    (key : List Char) (hkey : '[' ∉ key) : (key ++ groups).takeWhile (· ≠ '[') = key ∧
      (key ++ groups).dropWhile (· ≠ '[') = groups := by
  have hrun : ∀ c ∈ key, decide (c ≠ '[') = true :=
    fun c hc ↦ decide_eq_true fun heq ↦ hkey (heq ▸ hc)
  have hstop : Source.StopsAt (fun c ↦ decide (c ≠ '[')) groups := by
    rcases groups_head h with ⟨rfl, -⟩ | ⟨rest, rfl⟩
    · exact fun _ hc ↦ nomatch hc
    · exact Source.stopsAt_cons rfl rest
  exact Source.takeWhile_run hrun hstop

theorem part_eq_ok_iff (cs : List Char) (steps : List Step) :
    part cs = .ok steps ↔ IsPart cs steps := by
  have hkeyed (name : List Char) (groups : List Step) :
      (if name.isEmpty then groups else .key (String.ofList name) :: groups) =
        keyStep name ++ groups := by
    rw [keyStep]
    split <;> rfl
  constructor
  · intro h
    rw [part] at h
    split at h
    · cases h
    · next hne =>
      obtain ⟨groups, hgroups, hsteps⟩ := eq_ok_of_map h
      obtain ⟨ns, hns, rfl⟩ := (indices_eq_ok_iff none _ List.not_mem_nil groups).mp hgroups
      rw [hkeyed] at hsteps
      refine ⟨_, _, ns, (List.takeWhile_append_dropWhile).symm, ?_, ?_, hns, hsteps.symm⟩
      · rwa [List.isEmpty_iff] at hne
      · intro hmem
        have hbefore := List.mem_takeWhile_imp hmem
        exact of_decide_eq_true hbefore rfl
  · rintro ⟨key, groups, ns, rfl, hne, hkey, hgroups, rfl⟩
    obtain ⟨htake, hdrop⟩ := takeWhile_key hgroups key hkey
    have hread := (indices_eq_ok_iff none groups List.not_mem_nil _).mpr ⟨ns, hgroups, rfl⟩
    rw [part, if_neg (mt List.isEmpty_iff.mp hne), htake, hdrop, hread, ← hkeyed]
    rfl

theorem parts_eq_ok_iff (pieces : List (List Char)) (steps : List Step) :
    parts pieces = .ok steps ↔
      ∃ inner, List.Forall₂ IsPart pieces inner ∧ steps = inner.flatten := by
  induction pieces generalizing steps with
  | nil =>
    constructor
    · intro h
      cases h
      exact ⟨[], .nil, rfl⟩
    · rintro ⟨inner, hinner, rfl⟩
      cases hinner
      rfl
  | cons piece rest ih =>
    constructor
    · intro h
      rw [parts] at h
      cases hpiece : part piece with
      | error fault =>
        rw [hpiece] at h
        cases h
      | ok front =>
        rw [hpiece] at h
        obtain ⟨back, hback, rfl⟩ := eq_ok_of_map h
        obtain ⟨inner, hinner, rfl⟩ := (ih back).mp hback
        exact ⟨front :: inner, .cons ((part_eq_ok_iff _ _).mp hpiece) hinner, rfl⟩
    · rintro ⟨inner, hinner, rfl⟩
      cases hinner with
      | cons hpiece hrest =>
        rw [parts, (part_eq_ok_iff _ _).mpr hpiece, (ih _).mpr ⟨_, hrest, rfl⟩]
        rfl

/-! ## Whole texts -/

/-- A text with dots between parts is empty only without parts. -/
theorem denotes_empty_iff (path : FieldPath) : Denotes "" path ↔ path = root := by
  constructor
  · rintro ⟨pieces, steps, htext, -, hparts, hsteps⟩
    cases hparts with
    | nil =>
      rcases path with ⟨inner⟩
      exact congrArg FieldPath.mk hsteps
    | @cons piece _ rest _ hpiece _ =>
      obtain ⟨-, -, -, -, hne, -⟩ := hpiece
      obtain ⟨c, more, rfl⟩ := List.exists_cons_of_ne_nil hne
      cases rest with
      | nil => cases htext
      | cons next more => cases htext
  · rintro rfl
    exact ⟨[], [], rfl, by simp, .nil, rfl⟩

theorem parse_eq_ok_iff (text : String) (path : FieldPath) :
    parse text = .ok path ↔ Denotes text path := by
  rw [parse]
  split
  · next hempty =>
    rw [String.isEmpty_iff.mp hempty, denotes_empty_iff, Except.ok.injEq, eq_comm]
  · next hempty =>
    obtain ⟨hne, hjoin, hfree⟩ := splitAt_spec '.' text.toList
    constructor
    · intro h
      obtain ⟨steps, hsteps, rfl⟩ := eq_ok_of_map h
      obtain ⟨inner, hinner, rfl⟩ := (parts_eq_ok_iff _ _).mp hsteps
      exact ⟨_, inner, hjoin.symm, hfree, hinner, rfl⟩
    · rintro ⟨pieces, inner, htext, hfree, hinner, hsteps⟩
      have hpieces : pieces ≠ [] := by
        rintro rfl
        rw [String.isEmpty_iff, ← String.toList_eq_nil_iff] at hempty
        exact hempty htext
      rw [htext, splitAt_intercalate hpieces hfree, (parts_eq_ok_iff _ _).mpr ⟨inner, hinner, rfl⟩]
      rcases path with ⟨steps⟩
      exact congrArg (Except.ok ∘ FieldPath.mk) hsteps.symm

theorem ofText_eq_ok_iff_parse (text : String) (path : FieldPath) :
    ofText text = .ok path ↔ parse text = .ok path := by
  rw [ofText]
  cases parse text with
  | error fault => exact iff_of_false (fun h ↦ nomatch h) (fun h ↦ nomatch h)
  | ok found =>
    constructor <;> intro h <;> exact congrArg Except.ok (Except.ok.inj h)

theorem ofText_eq_ok_iff (text : String) (path : FieldPath) :
    ofText text = .ok path ↔ Denotes text path :=
  (ofText_eq_ok_iff_parse text path).trans (parse_eq_ok_iff text path)

/-- Reading gives the path that a text denotes, and refuses the whole text when it denotes none. -/
theorem ofText_decides_grammar (text : String) :
    (∀ path, ofText text = .ok path ↔ Denotes text path) ∧
      ((∃ fault, ofText text = .error (.invalidPath text fault)) ↔
        ∀ path, ¬ Denotes text path) := by
  refine ⟨ofText_eq_ok_iff text, ?_, ?_⟩
  · rintro ⟨fault, hfault⟩ path hdenotes
    rw [(ofText_eq_ok_iff text path).mpr hdenotes] at hfault
    cases hfault
  · intro hnone
    cases hread : parse text with
    | error fault =>
      refine ⟨fault, ?_⟩
      rw [ofText, hread]
      rfl
    | ok path => exact absurd ((parse_eq_ok_iff text path).mp hread) (hnone path)

end ManifestTree.FieldPath
