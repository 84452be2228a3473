import ManifestTree.Source.Literal
import Std.Data.String.ToNat

/-!
# Texts that show where they end

A text with something behind it can be read in one way only when it shows where it ends. A run of
characters of one sort ends where another sort begins. A string literal shows its own end whatever
follows: an escape begins with a backslash and is complete after one letter or after a brace, and
the closing quote is the first one that stands for itself. So a literal and what follows it
determine the string, and elements that show their ends make lists between commas that do.
-/

namespace ManifestTree.Source

/-! ## Runs of characters -/

/-- A text does not go on with a character of some sort. -/
def StopsAt (sort : Char → Bool) (rest : List Char) : Prop :=
  ∀ c, rest.head? = some c → sort c = false

theorem stopsAt_cons {sort : Char → Bool} {c : Char} (h : sort c = false) (rest : List Char) :
    StopsAt sort (c :: rest) := by
  intro d hd
  cases hd
  exact h

theorem takeWhile_run {sort : Char → Bool} {run rest : List Char} (hrun : ∀ c ∈ run, sort c)
    (hrest : StopsAt sort rest) :
    (run ++ rest).takeWhile sort = run ∧ (run ++ rest).dropWhile sort = rest := by
  have hstop : rest.takeWhile sort = [] ∧ rest.dropWhile sort = rest := by
    cases rest with
    | nil => exact ⟨rfl, rfl⟩
    | cons c rest =>
      have hc : sort c = false := hrest c rfl
      simp [hc]
  rw [List.takeWhile_append_of_pos hrun, List.dropWhile_append_of_pos hrun, hstop.1, hstop.2,
    List.append_nil]
  exact ⟨rfl, rfl⟩

/-- Two runs of characters of one sort, with something else behind them, are equal. -/
theorem eq_of_run_append {sort : Char → Bool} {run other rest more : List Char}
    (hrun : ∀ c ∈ run, sort c) (hother : ∀ c ∈ other, sort c) (hrest : StopsAt sort rest)
    (hmore : StopsAt sort more) (h : run ++ rest = other ++ more) : run = other ∧ rest = more := by
  have hruns : run = other := by
    rw [← (takeWhile_run hrun hrest).1, h, (takeWhile_run hother hmore).1]
  rw [hruns] at h
  exact ⟨hruns, List.append_cancel_left h⟩

/-- Two texts without a closing character, each closed by it, are equal. -/
theorem eq_of_append_close {close : Char} {text other rest more : List Char}
    (htext : close ∉ text) (hother : close ∉ other)
    (h : text ++ close :: rest = other ++ close :: more) : text = other ∧ rest = more := by
  have hrun {cs : List Char} (hcs : close ∉ cs) : ∀ c ∈ cs, (c != close) = true :=
    fun c hc ↦ bne_iff_ne.mpr fun heq ↦ hcs (heq ▸ hc)
  have hstop (back : List Char) : StopsAt (· != close) (close :: back) := by
    apply stopsAt_cons
    exact bne_self_eq_false close
  obtain ⟨hsame, hback⟩ :=
    eq_of_run_append (hrun htext) (hrun hother) (hstop rest) (hstop more) h
  exact ⟨hsame, List.tail_eq_of_cons_eq hback⟩

/-- A text does not begin with another one that goes on with the sort. -/
theorem StopsAt.ne_append {sort : Char → Bool} {rest : List Char} (h : StopsAt sort rest)
    {text : String} (htext : text.toList.head?.any sort) (more : List Char) :
    rest ≠ text.toList ++ more := by
  rintro rfl
  cases hfirst : text.toList with
  | nil =>
    rw [hfirst] at htext
    cases htext
  | cons c back =>
    rw [hfirst] at h htext
    cases (h c rfl).symm.trans htext

def Diverge (text other : String) : Prop :=
  text.toList.isPrefixOf other.toList = false ∧ other.toList.isPrefixOf text.toList = false
  deriving Decidable

theorem Diverge.append_ne {text other : String} (h : Diverge text other) (rest more : List Char) :
    text.toList ++ rest ≠ other.toList ++ more := by
  intro heq
  rcases List.append_eq_append_iff.mp heq with ⟨middle, hother, -⟩ | ⟨middle, htext, -⟩
  · have hprefix := List.isPrefixOf_iff_prefix.mpr ⟨middle, hother.symm⟩
    exact absurd (h.1.symm.trans hprefix) (by decide)
  · have hprefix := List.isPrefixOf_iff_prefix.mpr ⟨middle, htext.symm⟩
    exact absurd (h.2.symm.trans hprefix) (by decide)

/-! ## Lists between commas -/

section CommaList

variable {α : Type} (write : α → List Char)

/-- Elements that follow others, each behind a comma and a blank. -/
def commaTail : List α → List Char
  | [] => []
  | x :: rest => ',' :: ' ' :: (write x ++ commaTail rest)

def commaList : List α → List Char
  | [] => []
  | x :: rest => write x ++ commaTail write rest

/-- What follows an element: a comma, or the character that closes the list. -/
def EndsElement (close : Char) (rest : List Char) : Prop :=
  ∃ c more, rest = c :: more ∧ (c = ',' ∨ c = close)

theorem EndsElement.stopsAt {close : Char} {rest : List Char} {sort : Char → Bool}
    (h : EndsElement close rest) (hcomma : sort ',' = false) (hclose : sort close = false) :
    StopsAt sort rest := by
  obtain ⟨c, more, rfl, rfl | rfl⟩ := h
  · exact stopsAt_cons hcomma more
  · exact stopsAt_cons hclose more

theorem endsElement_commaTail (close : Char) (xs : List α) (rest : List Char) :
    EndsElement close (commaTail write xs ++ close :: rest) := by
  cases xs with
  | nil => exact ⟨close, rest, rfl, .inr rfl⟩
  | cons x xs => exact ⟨',', _, rfl, .inl rfl⟩

variable {write}

/-- What follows the first elements begins with a comma in both lists, or closes both. -/
theorem commaList_of_commaTail {close : Char} (hclose : close ≠ ',') {xs ys : List α}
    {rest more : List Char}
    (h : commaTail write xs ++ close :: rest = commaTail write ys ++ close :: more) :
    commaList write xs ++ close :: rest = commaList write ys ++ close :: more := by
  cases xs with
  | nil =>
    cases ys with
    | nil => exact h
    | cons y ys => exact absurd (List.cons.inj h).1 hclose
  | cons x xs =>
    cases ys with
    | nil => exact absurd (List.cons.inj h).1.symm hclose
    | cons y ys => exact (List.cons.inj (List.cons.inj h).2).2

/-- A list whose elements end before commas and before the closing character ends there itself. -/
theorem commaList_delimited {close : Char} (hclose : close ≠ ',')
    (hfirst : ∀ x rest more, write x ++ rest ≠ close :: more) {xs ys : List α}
    (hwrite : ∀ x ∈ xs, ∀ y ∈ ys, ∀ rest more, EndsElement close rest → EndsElement close more →
      write x ++ rest = write y ++ more → x = y ∧ rest = more)
    {rest more : List Char}
    (h : commaList write xs ++ close :: rest = commaList write ys ++ close :: more) :
    xs = ys ∧ rest = more := by
  induction xs generalizing ys with
  | nil =>
    cases ys with
    | nil => exact ⟨rfl, List.tail_eq_of_cons_eq h⟩
    | cons y ys =>
      rw [commaList, commaList, List.append_assoc] at h
      exact absurd h.symm (hfirst _ _ _)
  | cons x xs ih =>
    cases ys with
    | nil =>
      rw [commaList, commaList, List.append_assoc] at h
      exact absurd h (hfirst _ _ _)
    | cons y ys =>
      rw [commaList, commaList, List.append_assoc, List.append_assoc] at h
      obtain ⟨rfl, htail⟩ := hwrite x List.mem_cons_self y List.mem_cons_self _ _
        (endsElement_commaTail write close xs rest) (endsElement_commaTail write close ys more) h
      obtain ⟨rfl, hrest⟩ := ih (fun x hx y hy ↦
        hwrite x (List.mem_cons_of_mem _ hx) y (List.mem_cons_of_mem _ hy))
        (commaList_of_commaTail hclose htail)
      exact ⟨rfl, hrest⟩

end CommaList

/-! ## Hexadecimal digits -/

theorem digitChar_injective {m n : Nat} (hm : m < 16) (hn : n < 16)
    (h : Nat.digitChar m = Nat.digitChar n) : m = n := by
  have hdigits : ∀ x y : Fin 16, Nat.digitChar x = Nat.digitChar y → x = y := by decide
  exact congrArg Fin.val (hdigits ⟨m, hm⟩ ⟨n, hn⟩ h)

theorem toDigits_sixteen_of_le {n : Nat} (h : 16 ≤ n) :
    Nat.toDigits 16 n = Nat.toDigits 16 (n / 16) ++ [Nat.digitChar (n % 16)] :=
  Nat.toDigits_of_base_le (by decide) h

theorem one_lt_length_toDigits_sixteen {n : Nat} (h : 16 ≤ n) :
    1 < (Nat.toDigits 16 n).length := by
  have hpos : 0 < (Nat.toDigits 16 (n / 16)).length := Nat.length_toDigits_pos
  rw [toDigits_sixteen_of_le h, List.length_append, List.length_singleton]
  omega

theorem toDigits_sixteen_injective {m n : Nat} (h : Nat.toDigits 16 m = Nat.toDigits 16 n) :
    m = n := by
  induction m using Nat.strongRecOn generalizing n with
  | ind m ih =>
    rcases Nat.lt_or_ge m 16 with hm | hm <;> rcases Nat.lt_or_ge n 16 with hn | hn
    · rw [Nat.toDigits_of_lt_base hm, Nat.toDigits_of_lt_base hn, List.cons.injEq] at h
      exact digitChar_injective hm hn h.1
    · have hlength := one_lt_length_toDigits_sixteen hn
      rw [← h, Nat.toDigits_of_lt_base hm] at hlength
      exact absurd hlength (by simp)
    · have hlength := one_lt_length_toDigits_sixteen hm
      rw [h, Nat.toDigits_of_lt_base hn] at hlength
      exact absurd hlength (by simp)
    · rw [toDigits_sixteen_of_le hm, toDigits_sixteen_of_le hn] at h
      obtain ⟨hfront, hlast⟩ := List.append_inj' h rfl
      rw [List.cons.injEq] at hlast
      have hdiv : m / 16 = n / 16 := ih (m / 16) (by omega) hfront
      have hmod : m % 16 = n % 16 :=
        digitChar_injective (Nat.mod_lt _ (by decide)) (Nat.mod_lt _ (by decide)) hlast.1
      omega

theorem not_mem_toDigits_sixteen (n : Nat) : '\x7d' ∉ Nat.toDigits 16 n := by
  have hdigits : ∀ x : Fin 16, Nat.digitChar x ≠ '\x7d' := by decide
  induction n using Nat.strongRecOn with
  | ind n ih =>
    rcases Nat.lt_or_ge n 16 with hn | hn
    · rw [Nat.toDigits_of_lt_base hn, List.mem_singleton]
      exact (hdigits ⟨n, hn⟩).symm
    · rw [toDigits_sixteen_of_le hn, List.mem_append, List.mem_singleton]
      rintro (hmem | heq)
      · exact ih (n / 16) (by omega) hmem
      · exact hdigits ⟨n % 16, Nat.mod_lt _ (by decide)⟩ heq.symm

/-! ## String literals -/

/-- The characters with a short escape, each with the letter behind the backslash. -/
def shortEscapes : List (Char × Char) :=
  [('\x00', '0'), ('\t', 't'), ('\x0d', 'r'), ('\n', 'n'), ('"', '"'), ('\\', '\\')]

/-- How a character stands inside a string literal. -/
inductive Escaped (c : Char) : List Char → Prop where
  | short {letter : Char} : (c, letter) ∈ shortEscapes → Escaped c ['\\', letter]
  | plain : c ≠ '"' → c ≠ '\\' → Escaped c [c]
  | code : Escaped c ('\\' :: 'u' :: '\x7b' :: (Nat.toDigits 16 c.toNat ++ ['\x7d']))

theorem escaped_escapeChar (c : Char) : Escaped c (escapeChar c).toList := by
  unfold escapeChar
  split
  · next h => exact h ▸ .short (by decide)
  split
  · next h => exact h ▸ .short (by decide)
  split
  · next h => exact h ▸ .short (by decide)
  split
  · next h => exact h ▸ .short (by decide)
  split
  · next h => exact h ▸ .short (by decide)
  · next hquote =>
    split
    · next h => exact h ▸ .short (by decide)
    · next hslash =>
      split
      · rw [Char.toString_eq_singleton, String.toList_singleton]
        exact .plain hquote hslash
      · simp only [String.toList_append, String.toList_ofList]
        exact .code

/-- An escaped character does not look like the closing quote. -/
theorem Escaped.head_ne {c : Char} {text : List Char} (h : Escaped c text) :
    ∃ first rest, text = first :: rest ∧ first ≠ '"' := by
  cases h with
  | short _ => exact ⟨_, _, rfl, by decide⟩
  | plain hquote _ => exact ⟨c, [], rfl, hquote⟩
  | code => exact ⟨_, _, rfl, by decide⟩

/-- An escaped character shows its own end. -/
theorem Escaped.delimited {c d : Char} {text other rest more : List Char} (hc : Escaped c text)
    (hd : Escaped d other) (h : text ++ rest = other ++ more) : c = d ∧ rest = more := by
  have hshort : ∀ x ∈ shortEscapes, ∀ y ∈ shortEscapes, x.2 = y.2 → x = y := by decide
  have hcode : ∀ x ∈ shortEscapes, x.2 ≠ 'u' := by decide
  cases hc with
  | short hmem =>
    cases hd with
    | short hother =>
      simp only [List.cons_append, List.nil_append, List.cons.injEq, true_and] at h
      exact ⟨congrArg Prod.fst (hshort _ hmem _ hother h.1), h.2⟩
    | plain _ hslash =>
      simp only [List.cons_append, List.cons.injEq] at h
      exact absurd h.1.symm hslash
    | code =>
      simp only [List.cons_append, List.cons.injEq, true_and] at h
      exact absurd h.1 (hcode _ hmem)
  | plain _ hslash =>
    cases hd with
    | short _ =>
      simp only [List.cons_append, List.cons.injEq] at h
      exact absurd h.1 hslash
    | plain _ _ =>
      simp only [List.cons_append, List.nil_append, List.cons.injEq] at h
      exact h
    | code =>
      simp only [List.cons_append, List.cons.injEq] at h
      exact absurd h.1 hslash
  | code =>
    cases hd with
    | short hother =>
      simp only [List.cons_append, List.cons.injEq, true_and] at h
      exact absurd h.1.symm (hcode _ hother)
    | plain _ hslash =>
      simp only [List.cons_append, List.cons.injEq] at h
      exact absurd h.1.symm hslash
    | code =>
      simp only [List.cons_append, List.append_assoc, List.nil_append, List.cons.injEq,
        true_and] at h
      obtain ⟨hdigits, hback⟩ := eq_of_append_close (not_mem_toDigits_sixteen c.toNat)
        (not_mem_toDigits_sixteen d.toNat) h
      exact ⟨Char.toNat_inj.mp (toDigits_sixteen_injective hdigits), hback⟩

/-- The characters between the quotes of a string literal. -/
def escapedText (text : List Char) : List Char := text.flatMap fun c ↦ (escapeChar c).toList

theorem toList_quote (text : String) :
    (quote text).toList = '"' :: (escapedText text.toList ++ ['"']) := by
  have hfold (cs : List Char) (out : String) :
      (cs.foldl (fun out c ↦ out ++ escapeChar c) out).toList = out.toList ++ escapedText cs := by
    induction cs generalizing out with
    | nil => simp [escapedText]
    | cons c rest ih => simp [ih, escapedText]
  rw [quote, String.foldl_eq_foldl_toList]
  simp [hfold]

theorem escapedText_delimited {text other rest more : List Char}
    (h : escapedText text ++ '"' :: rest = escapedText other ++ '"' :: more) :
    text = other ∧ rest = more := by
  induction text generalizing other with
  | nil =>
    cases other with
    | nil => exact ⟨rfl, List.tail_eq_of_cons_eq h⟩
    | cons d ds =>
      obtain ⟨first, back, heq, hne⟩ := (escaped_escapeChar d).head_ne
      simp only [escapedText, List.flatMap_nil, List.flatMap_cons, heq, List.nil_append,
        List.cons_append, List.cons.injEq] at h
      exact absurd h.1.symm hne
  | cons c cs ih =>
    cases other with
    | nil =>
      obtain ⟨first, back, heq, hne⟩ := (escaped_escapeChar c).head_ne
      simp only [escapedText, List.flatMap_nil, List.flatMap_cons, heq, List.nil_append,
        List.cons_append, List.cons.injEq] at h
      exact absurd h.1 hne
    | cons d ds =>
      simp only [escapedText, List.flatMap_cons, List.append_assoc] at h
      obtain ⟨rfl, hback⟩ := (escaped_escapeChar c).delimited (escaped_escapeChar d) h
      obtain ⟨rfl, hrest⟩ := ih hback
      exact ⟨rfl, hrest⟩

/-- A string literal shows its own end, whatever follows. -/
theorem quote_delimited {text other : String} {rest more : List Char}
    (h : (quote text).toList ++ rest = (quote other).toList ++ more) :
    text = other ∧ rest = more := by
  simp only [toList_quote, List.cons_append, List.append_assoc, List.nil_append, List.cons.injEq,
    true_and] at h
  obtain ⟨htext, hrest⟩ := escapedText_delimited h
  exact ⟨String.toList_inj.mp htext, hrest⟩

theorem quote_injective {text other : String} (h : quote text = quote other) : text = other :=
  (quote_delimited (congrArg (fun whole : String ↦ whole.toList ++ []) h)).1

end ManifestTree.Source
