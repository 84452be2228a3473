import ManifestTree.Json.Reader
import ManifestTree.Proofs.DataLiterals
import ManifestTree.Proofs.NearestNumbers
import ManifestTree.Proofs.Leaves

/-!
# Reading data literals back

The compiler of the target language and its data macro read a data literal by rules of their own. A
string has the escapes of that language, a minus sign stands in front of a number, digits with a
point or an exponent are the nearest binary64 number, and digits alone are an integer of 32 bits,
sign included, as no suffix says otherwise. So a data literal is read back as its value unless it
holds a wider integer, which the compiler refuses. The reader knows the forms that data literals
have: it refuses other expressions, suffixes, comments and the escapes of bytes. The limits of the
macro on length and nesting are left aside.
-/

namespace ManifestTree.Source

/-! ## Reading string literals -/

/-- Where a character of a string literal stands. -/
inductive StringPlace where
  | plain
  | escape
  | codePoint
  /-- Inside the braces of such an escape, with the digits before it, the last one first. -/
  | digits (before : List Char)

def escaped? : Char → Option Char
  | 'n' => some '\n'
  | 'r' => some '\x0d'
  | 't' => some '\t'
  | '0' => some '\x00'
  | '\\' => some '\\'
  | '"' => some '"'
  | '\x27' => some '\x27'
  | _ => none

def codePoint? (digits : List Char) : Option Char :=
  if digits.length ≤ 6 then Digits.character? digits.length digits else none

def push (c : Char) (read : Option (List Char × List Char)) : Option (List Char × List Char) :=
  read.map fun (text, rest) ↦ (c :: text, rest)

/-- The rest of a string literal from some place on, and what follows its closing quote. -/
def stringBody? : StringPlace → List Char → Option (List Char × List Char)
  | _, [] => none
  | .plain, c :: rest =>
    if c = '"' then some ([], rest)
    else if c = '\\' then stringBody? .escape rest
    else if c = '\x0d' then none
    else push c (stringBody? .plain rest)
  | .escape, letter :: rest =>
    if letter = 'u' then stringBody? .codePoint rest
    else (escaped? letter).bind fun c ↦ push c (stringBody? .plain rest)
  | .codePoint, c :: rest =>
    if c = '\x7b' then stringBody? (.digits []) rest else none
  | .digits before, c :: rest =>
    if c = '\x7d' then (codePoint? before.reverse).bind fun c ↦ push c (stringBody? .plain rest)
    else stringBody? (.digits (c :: before)) rest

theorem digit?_digitChar {n : ℕ} (h : n < 16) : Digits.digit? 16 (Nat.digitChar n) = some n := by
  have hdigits : ∀ x : Fin 16, Digits.digit? 16 (Nat.digitChar x) = some x.val := by decide
  exact hdigits ⟨n, h⟩

theorem natural?_concat {base n value : ℕ} {digits : List Char} {c : Char}
    (hdigits : Digits.natural? base digits = some n) (hc : Digits.digit? base c = some value) :
    Digits.natural? base (digits ++ [c]) = some (n * base + value) := by
  rw [Digits.natural?] at hdigits ⊢
  split at hdigits
  · cases hdigits
  · obtain ⟨values, hvalues, rfl⟩ := Option.map_eq_some_iff.mp hdigits
    simp [List.mapM_append, hvalues, hc]

theorem natural?_toDigits_sixteen (n : ℕ) :
    Digits.natural? 16 (Nat.toDigits 16 n) = some n := by
  induction n using Nat.strongRecOn with
  | ind n ih =>
    rcases Nat.lt_or_ge n 16 with hlt | hge
    · rw [Nat.toDigits_of_lt_base hlt]
      simp [Digits.natural?, digit?_digitChar hlt]
    · have hlast := digit?_digitChar (Nat.mod_lt n (by decide : 0 < 16))
      rw [toDigits_sixteen_of_le hge, natural?_concat (ih (n / 16) (by omega)) hlast,
        Nat.div_add_mod']

theorem codePoint?_toDigits (c : Char) : codePoint? (Nat.toDigits 16 c.toNat) = some c := by
  have hvalid : c.toNat < 0xD800 ∨ 0xDFFF < c.toNat ∧ c.toNat < 0x110000 := c.valid
  have hlength : (Nat.toDigits 16 c.toNat).length ≤ 6 := by
    rw [Nat.length_toDigits_le_iff (by decide) (by decide)]
    omega
  rw [codePoint?, if_pos hlength, Digits.character?, Digits.fixed?, List.take_length, if_pos rfl,
    natural?_toDigits_sixteen]
  change (if _ then none else some (Char.ofNat c.toNat)) = some c
  rw [if_neg (by omega), Char.ofNat_toNat]

/-- The digits of a code point are gathered up to the closing brace. -/
theorem stringBody?_digits {digits : List Char} (h : '\x7d' ∉ digits) (before rest : List Char) :
    stringBody? (.digits before) (digits ++ '\x7d' :: rest) =
      (codePoint? (before.reverse ++ digits)).bind fun c ↦ push c (stringBody? .plain rest) := by
  induction digits generalizing before with
  | nil => simp [stringBody?]
  | cons c digits ih =>
    obtain ⟨hc, hdigits⟩ := not_or.mp (mt List.mem_cons.mpr h)
    rw [List.cons_append, stringBody?, if_neg (Ne.symm hc), ih hdigits]
    simp

theorem stringBody?_escapeChar (c : Char) (rest : List Char) :
    stringBody? .plain ((escapeChar c).toList ++ rest) = push c (stringBody? .plain rest) := by
  unfold escapeChar
  split
  · next h => exact h ▸ rfl
  split
  · next h => exact h ▸ rfl
  split
  · next h => exact h ▸ rfl
  next hreturn =>
  split
  · next h => exact h ▸ rfl
  split
  · next h => exact h ▸ rfl
  next hquote =>
  split
  · next h => exact h ▸ rfl
  next hslash =>
  split
  · rw [Char.toString_eq_singleton, String.toList_singleton, List.singleton_append, stringBody?,
      if_neg hquote, if_neg hslash, if_neg hreturn]
  · have hdigits := stringBody?_digits (not_mem_toDigits_sixteen c.toNat) [] rest
    rw [List.reverse_nil, List.nil_append, codePoint?_toDigits, Option.bind_some] at hdigits
    rw [← hdigits]
    simp [stringBody?]

/-- A string literal is read back as its string. -/
theorem stringBody?_escapedText (text rest : List Char) :
    stringBody? .plain (escapedText text ++ '"' :: rest) = some (text, rest) := by
  induction text with
  | nil => simp [escapedText, stringBody?]
  | cons c text ih =>
    rw [escapedText, List.flatMap_cons, List.append_assoc, stringBody?_escapeChar, ← escapedText,
      ih]
    rfl

/-! ## Reading numbers and words -/

open Json

def isTokenChar (c : Char) : Bool := c.isAlphanum || c == '_' || Digits.isNumberChar c

/-- An integer of a sign and a size that fit 32 bits. -/
def integer? (negative : Bool) (size : ℕ) : Option Json :=
  if size < 2 ^ 31 + negative.toNat then
    some (number (.integer (if negative then -(size : ℤ) else size)))
  else none

/-- A number behind its sign: digits alone are an integer, and anything else is binary64. -/
def unsigned? (negative : Bool) (cs : List Char) : Option Json :=
  if cs.all Char.isDigit then (Digits.natural? 10 cs).bind (integer? negative)
  else if cs.head?.any Char.isDigit then
    (Digits.decimal? cs).map fun x ↦ number (.real (x.withSign negative))
  else none

def token? (cs : List Char) : Option Json :=
  if cs = "null".toList then some .null
  else if cs = "true".toList then some (.bool true)
  else if cs = "false".toList then some (.bool false)
  else if cs.head? = some '-' then unsigned? true cs.tail
  else unsigned? false cs

/-! ## Reading values -/

section Lists

variable {α : Type} (element : List Char → Option (α × List Char)) (close : Char)

/-- Elements up to a closing character, with commas between them and perhaps behind the last. -/
def list? : ℕ → List Char → Option (List α × List Char)
  | 0, _ => none
  | fuel + 1, cs =>
    match skipBlanks cs with
    | [] => none
    | c :: rest =>
      if c = close then some ([], rest)
      else (element (c :: rest)).bind fun (x, rest) ↦
        match skipBlanks rest with
        | [] => none
        | c :: rest =>
          if c = close then some ([x], rest)
          else if c = ',' then (list? fuel rest).map fun (xs, rest) ↦ (x :: xs, rest)
          else none

end Lists

def member? (value : List Char → Option (Json × List Char)) (cs : List Char) :
    Option ((String × Json) × List Char) :=
  match skipBlanks cs with
  | [] => none
  | c :: rest =>
    if c = '"' then
      (stringBody? .plain rest).bind fun (key, rest) ↦
        match skipBlanks rest with
        | [] => none
        | c :: rest =>
          if c = ':' then (value rest).map fun (value, rest) ↦ ((String.ofList key, value), rest)
          else none
    else none

/-- A value with less than `depth` collections inside one another, and what follows it. Members are
inserted one after another. -/
def value? : ℕ → List Char → Option (Json × List Char)
  | 0, _ => none
  | depth + 1, cs =>
    match skipBlanks cs with
    | [] => none
    | c :: rest =>
      if c = '"' then
        (stringBody? .plain rest).map fun (text, rest) ↦ (string (String.ofList text), rest)
      else if c = '[' then
        (list? (value? depth) ']' (rest.length + 1) rest).map fun (items, rest) ↦
          (array items, rest)
      else if c = '\x7b' then
        (list? (member? (value? depth)) '\x7d' (rest.length + 1) rest).map fun (members, rest) ↦
          (object (Members.extend [] members), rest)
      else
        (token? ((c :: rest).takeWhile isTokenChar)).map fun value ↦
          (value, (c :: rest).dropWhile isTokenChar)

/-- The value that the whole text of a data literal stands for. -/
def read? (text : String) : Option Json :=
  (value? (text.length + 1) text.toList).bind fun (value, rest) ↦
    if (skipBlanks rest).isEmpty then some value else none

/-! ## Blanks and lists -/

theorem eq_of_isBlank {c : Char} (h : isBlank c) : c = ' ' ∨ c = '\t' ∨ c = '\n' ∨ c = '\x0d' := by
  simpa [isBlank, or_assoc] using h

theorem skipBlanks_cons {c : Char} (h : isBlank c = false) (rest : List Char) :
    skipBlanks (c :: rest) = c :: rest := by
  rw [skipBlanks, List.dropWhile_cons_of_neg (by simp [h])]

section Lists

variable {α : Type} {element : List Char → Option (α × List Char)} {close : Char}

theorem list?_blank (fuel : ℕ) (cs : List Char) :
    list? element close fuel (' ' :: cs) = list? element close fuel cs := by
  cases fuel <;> rfl

theorem length_le_commaTail (write : α → List Char) (xs : List α) :
    2 * xs.length ≤ (commaTail write xs).length := by
  induction xs with
  | nil => exact Nat.le_refl _
  | cons x xs ih =>
    simp only [commaTail, List.length_cons, List.length_append]
    omega

theorem length_le_commaList (write : α → List Char) (xs : List α) (close : Char)
    (rest : List Char) : xs.length ≤ (commaList write xs ++ close :: rest).length := by
  cases xs with
  | nil => exact Nat.zero_le _
  | cons x xs =>
    have htail := length_le_commaTail write xs
    simp only [commaList, List.length_cons, List.length_append]
    omega

theorem length_le_commaList_of_mem (write : α → List Char) {x : α} {xs : List α} (h : x ∈ xs) :
    (write x).length ≤ (commaList write xs).length := by
  have htail {x : α} {xs : List α} (h : x ∈ xs) :
      (write x).length ≤ (commaTail write xs).length := by
    induction xs with
    | nil => cases h
    | cons y ys ih =>
      simp only [commaTail, List.length_cons, List.length_append]
      rcases List.mem_cons.mp h with rfl | hmem
      · omega
      · have hlater := ih hmem
        omega
  cases xs with
  | nil => cases h
  | cons y ys =>
    rw [commaList, List.length_append]
    rcases List.mem_cons.mp h with rfl | hmem
    · exact Nat.le_add_right _ _
    · exact (htail hmem).trans (Nat.le_add_left _ _)

/-- A list is read back when its elements are. -/
theorem list?_commaList {write : α → List Char} {fits : α → Prop} [DecidablePred fits]
    (hclose : isBlank close = false) (hcomma : close ≠ ',') {xs : List α}
    (hfirst : ∀ x ∈ xs, ∃ c more, write x = c :: more ∧ c ≠ close ∧ isBlank c = false)
    (helement : ∀ x ∈ xs, ∀ rest, EndsElement close rest →
      element (write x ++ rest) = if fits x then some (x, rest) else none)
    {fuel : ℕ} (hfuel : xs.length < fuel) (rest : List Char) :
    list? element close fuel (commaList write xs ++ close :: rest) =
      if ∀ x ∈ xs, fits x then some (xs, rest) else none := by
  obtain ⟨fuel, rfl⟩ := Nat.exists_eq_succ_of_ne_zero (Nat.ne_of_gt (Nat.zero_lt_of_lt hfuel))
  induction xs generalizing fuel with
  | nil => simp [commaList, list?, skipBlanks_cons hclose]
  | cons x xs ih =>
    obtain ⟨c, more, hwrite, hc, hblank⟩ := hfirst x List.mem_cons_self
    have hx := helement x List.mem_cons_self _ (endsElement_commaTail write close xs rest)
    rw [commaList, List.append_assoc, list?, hwrite, List.cons_append, skipBlanks_cons hblank]
    rw [hwrite, List.cons_append] at hx
    dsimp only
    rw [if_neg hc, hx]
    by_cases hfits : fits x
    · rw [if_pos hfits, Option.bind_some]
      cases xs with
      | nil => simp [commaTail, skipBlanks_cons hclose, hfits]
      | cons y ys =>
        have hfuel' : (y :: ys).length < fuel := Nat.lt_of_succ_lt_succ hfuel
        obtain ⟨fuel, rfl⟩ :=
          Nat.exists_eq_succ_of_ne_zero (Nat.ne_of_gt (Nat.zero_lt_of_lt hfuel'))
        have hys := ih (fun x hx ↦ hfirst x (List.mem_cons_of_mem _ hx))
          (fun x hx ↦ helement x (List.mem_cons_of_mem _ hx)) fuel hfuel'
        rw [commaTail, List.cons_append, List.cons_append, skipBlanks_cons rfl]
        dsimp only
        rw [if_neg (Ne.symm hcomma), if_pos rfl, list?_blank, ← commaList, hys]
        simp only [List.forall_mem_cons (a := x), hfits, true_and]
        split <;> rfl
    · rw [if_neg hfits, Option.bind_none, if_neg fun h ↦ hfits (h x List.mem_cons_self)]

end Lists

/-! ## Number texts -/

/-- A scalar that has 32 bits with its sign if it is an integer. -/
def IsNarrow : Json → Prop
  | number (.integer value) => -2 ^ 31 ≤ value ∧ value < 2 ^ 31
  | _ => True

instance : DecidablePred IsNarrow
  | number (.integer value) => inferInstanceAs (Decidable (-2 ^ 31 ≤ value ∧ value < 2 ^ 31))
  | number (.real _) => isTrue trivial
  | .null => isTrue trivial
  | .bool _ => isTrue trivial
  | string _ => isTrue trivial
  | array _ => isTrue trivial
  | object _ => isTrue trivial

theorem token?_sign (negative : Bool) {c : Char} (hc : c.isDigit) (rest : List Char) :
    token? ((if negative then ['-'] else []) ++ c :: rest) = unsigned? negative (c :: rest) := by
  have hne {d : Char} (hd : d.isDigit = false) : c ≠ d := by
    rintro rfl
    cases hd.symm.trans hc
  cases negative with
  | true => rfl
  | false =>
    have hn : c ≠ 'n' := hne rfl
    have ht : c ≠ 't' := hne rfl
    have hf : c ≠ 'f' := hne rfl
    have hminus : c ≠ '-' := hne rfl
    simp [token?, hn, ht, hf, hminus]

theorem unsigned?_toDigits (negative : Bool) (size : ℕ) :
    unsigned? negative (Nat.toDigits 10 size) = integer? negative size := by
  have hdigits : (Nat.toDigits 10 size).all Char.isDigit :=
    List.all_eq_true.mpr fun _ ↦ Digits.isDigit_of_mem_toDigits
  rw [unsigned?, if_pos hdigits, Digits.natural?_toDigits, Option.bind_some]

theorem toList_integerText (value : ℤ) : (toString value).toList =
    (if decide (value < 0) then ['-'] else []) ++ Nat.toDigits 10 value.natAbs := by
  rw [Int.toString_eq_repr, Int.repr_eq_if]
  by_cases h : value < 0
  · have hsize : (-value).toNat = value.natAbs := by omega
    rw [if_neg (not_le.mpr h), decide_eq_true h, if_pos rfl, String.toList_append, Nat.toList_repr,
      hsize]
    rfl
  · have hsize : value.toNat = value.natAbs := by omega
    rw [if_pos (not_lt.mp h), decide_eq_false h, Nat.toList_repr, hsize]
    rfl

/-- An integer is read back when it has 32 bits, and refused otherwise. -/
theorem token?_integer (value : ℤ) : token? (toString value).toList =
    if IsNarrow (number (.integer value)) then some (number (.integer value)) else none := by
  have hne : Nat.toDigits 10 value.natAbs ≠ [] := Nat.toDigits_ne_nil
  obtain ⟨c, rest, hdigits⟩ := List.exists_cons_of_ne_nil hne
  have hc : c.isDigit := Digits.isDigit_of_mem_toDigits (hdigits ▸ List.mem_cons_self)
  rw [toList_integerText, hdigits, token?_sign _ hc, ← hdigits, unsigned?_toDigits, integer?]
  by_cases h : value < 0
  · have hvalue : -(value.natAbs : ℤ) = value := by omega
    rw [decide_eq_true h, if_pos rfl, hvalue]
    refine if_congr ?_ rfl rfl
    rw [IsNarrow, Bool.toNat_true]
    omega
  · have hvalue : (value.natAbs : ℤ) = value := by omega
    rw [decide_eq_false h, if_neg Bool.false_ne_true, hvalue]
    refine if_congr ?_ rfl rfl
    rw [IsNarrow, Bool.toNat_false]
    omega

theorem token?_numberText {n : Number} (h : n.IsFinite) :
    token? (numberText Decimal.dataLayout n).toList =
      if IsNarrow (number n) then some (number n) else none := by
  cases n with
  | integer value => exact token?_integer value
  | real x =>
    obtain ⟨s, htext, hread⟩ := Decimal.exists_decimal?_text h
    obtain ⟨c, rest, hfirst, hc⟩ := s.exists_first
    obtain ⟨mark, hmark, hdigit, -⟩ := s.exists_mark
    have hall : ¬ s.text.all Char.isDigit := by
      intro hall
      cases hdigit.symm.trans (List.all_eq_true.mp hall mark hmark)
    have hhead : s.text.head?.any Char.isDigit := by
      rw [hfirst]
      exact hc
    have hnarrow : IsNarrow (number (.real x)) := trivial
    rw [numberText, htext, hfirst, token?_sign _ hc, ← hfirst, unsigned?, if_neg hall, if_pos hhead,
      if_pos hnarrow]
    obtain ⟨y, hy, hx⟩ := Option.map_eq_some_iff.mp hread
    rw [hy, Option.map_some, hx]

/-! ## Values -/

/-- Every integer in a value has 32 bits with its sign. -/
def NarrowIntegers (value : Json) : Prop := ∀ found ∈ value.scalars, IsNarrow found

instance : DecidablePred NarrowIntegers :=
  fun value ↦ inferInstanceAs (Decidable (∀ found ∈ value.scalars, IsNarrow found))

theorem narrowIntegers_array_iff {items : List Json} :
    NarrowIntegers (array items) ↔ ∀ item ∈ items, NarrowIntegers item := by
  rw [NarrowIntegers, scalars_array]
  induction items with
  | nil => simp [gatherItems]
  | cons item rest ih =>
    rw [gatherItems, List.forall_mem_cons, ← ih]
    simp only [Multiset.mem_add, or_imp, forall_and]
    rfl

theorem narrowIntegers_object_iff {members : Members} :
    NarrowIntegers (object members) ↔ ∀ entry ∈ members, NarrowIntegers entry.2 := by
  rw [NarrowIntegers, scalars_object]
  induction members with
  | nil => simp [gatherMembers]
  | cons entry rest ih =>
    rw [gatherMembers, List.forall_mem_cons, ← ih]
    simp only [Multiset.mem_add, or_imp, forall_and]
    rfl

theorem isTokenChar_ne {c d : Char} (hc : isTokenChar c) (hd : isTokenChar d = false) : c ≠ d := by
  rintro rfl
  cases hd.symm.trans hc

theorem isBlank_of_isTokenChar {c : Char} (hc : isTokenChar c) : isBlank c = false := by
  refine Bool.eq_false_iff.mpr fun h ↦ ?_
  rcases eq_of_isBlank h with rfl | rfl | rfl | rfl <;> cases hc

theorem value?_token (depth : ℕ) {text rest : List Char} (hne : text ≠ [])
    (htext : ∀ c ∈ text, isTokenChar c) (hrest : StopsAt isTokenChar rest) :
    value? (depth + 1) (text ++ rest) = (token? text).map fun value ↦ (value, rest) := by
  obtain ⟨htake, hdrop⟩ := takeWhile_run htext hrest
  obtain ⟨c, more, rfl⟩ := List.exists_cons_of_ne_nil hne
  have hc := htext c List.mem_cons_self
  rw [List.cons_append] at htake hdrop ⊢
  rw [value?, skipBlanks_cons (isBlank_of_isTokenChar hc)]
  dsimp only
  rw [if_neg (isTokenChar_ne hc rfl), if_neg (isTokenChar_ne hc rfl),
    if_neg (isTokenChar_ne hc rfl), htake, hdrop]

theorem value?_string (depth : ℕ) (text : String) (rest : List Char) :
    value? (depth + 1) ((quote text).toList ++ rest) = some (string text, rest) := by
  rw [toList_quote, List.cons_append, List.append_assoc, List.singleton_append, value?,
    skipBlanks_cons rfl]
  dsimp only
  rw [if_pos rfl, stringBody?_escapedText, Option.map_some, String.ofList_toList]

theorem value?_blank (depth : ℕ) (cs : List Char) : value? depth (' ' :: cs) = value? depth cs := by
  cases depth <;> rfl

/-- A word or a number is read back as a scalar, unless that is an integer that is too wide. -/
theorem value?_scalar (depth : ℕ) {found : Json} {text rest : List Char}
    (hscalar : found.scalars = {found}) (hne : text ≠ []) (htext : ∀ c ∈ text, isTokenChar c)
    (htoken : token? text = if IsNarrow found then some found else none)
    (hrest : StopsAt isTokenChar rest) : value? (depth + 1) (text ++ rest) =
      if NarrowIntegers found then some (found, rest) else none := by
  have hnarrow : NarrowIntegers found ↔ IsNarrow found := by
    rw [NarrowIntegers, hscalar]
    simp
  rw [value?_token depth hne htext hrest, htoken, if_congr hnarrow rfl rfl]
  split <;> rfl

theorem exists_first_not_blank (value : Json) {close : Char} (hclose : kindOfFirst? close = none) :
    ∃ c more, (dataLiteral value).toList = c :: more ∧ c ≠ close ∧ isBlank c = false := by
  obtain ⟨c, more, htext, hc⟩ := exists_first value
  refine ⟨c, more, htext, ?_, Bool.eq_false_iff.mpr fun h ↦ ?_⟩
  · rintro rfl
    cases hclose.symm.trans hc
  · rcases eq_of_isBlank h with rfl | rfl | rfl | rfl <;> cases hc

/-- A member is read back when its value is. -/
theorem member?_memberText {read : List Char → Option (Json × List Char)} {entry : String × Json}
    {rest : List Char} (hblank : ∀ cs, read (' ' :: cs) = read cs)
    (hread : read ((dataLiteral entry.2).toList ++ rest) =
      if NarrowIntegers entry.2 then some (entry.2, rest) else none) :
    member? read (memberText entry ++ rest) =
      if NarrowIntegers entry.2 then some (entry, rest) else none := by
  simp only [memberText, toList_quote, List.cons_append, List.append_assoc, List.nil_append]
  rw [member?, skipBlanks_cons rfl]
  dsimp only
  rw [if_pos rfl, stringBody?_escapedText, Option.bind_some]
  dsimp only
  rw [skipBlanks_cons rfl]
  dsimp only
  rw [if_pos rfl, hblank, hread, String.ofList_toList]
  split <;> rfl

/-- A data literal is read back as its value, or refused when an integer in it is too wide. The
induction is on the depth, which bounds the height of the elements of a collection too. -/
theorem value?_dataLiteral {depth : ℕ} {value : Json} {rest : List Char}
    (hdepth : value.height < depth) (hfinite : value.FiniteNumbers) (hwell : value.WellFormed)
    (hrest : StopsAt isTokenChar rest) : value? depth ((dataLiteral value).toList ++ rest) =
      if NarrowIntegers value then some (value, rest) else none := by
  induction depth generalizing value rest with
  | zero => exact absurd hdepth (Nat.not_lt_zero _)
  | succ depth ih =>
  cases value with
  | null => exact value?_scalar depth rfl (by decide) (List.all_eq_true.mp rfl) rfl hrest
  | bool value =>
    cases value
    · exact value?_scalar depth rfl (by decide) (List.all_eq_true.mp rfl) rfl hrest
    · exact value?_scalar depth rfl (by decide) (List.all_eq_true.mp rfl) rfl hrest
  | number value =>
    rw [dataLiteral]
    refine value?_scalar depth rfl (numberText_ne_empty value) (fun c hc ↦ ?_)
      (token?_numberText (isFinite_of_finiteNumbers hfinite)) hrest
    simp [isTokenChar, isNumberChar_of_mem_numberText value c hc]
  | string value =>
    have hnarrow : NarrowIntegers (string value) := by
      intro found hfound
      cases Multiset.mem_singleton.mp hfound
      trivial
    rw [dataLiteral, value?_string, if_pos hnarrow]
  | array items =>
    have hitems : ∀ item ∈ items, ∀ rest, EndsElement ']' rest →
        value? depth ((dataLiteral item).toList ++ rest) =
          if NarrowIntegers item then some (item, rest) else none := by
      intro item hitem rest hrest
      have hlt : item.height < depth := by
        rw [Json.height] at hdepth
        exact (height_item_le hitem).trans_lt (Nat.lt_of_succ_lt_succ hdepth)
      exact ih hlt (finiteNumbers_item hfinite item hitem)
        (itemsWellFormed_iff.mp hwell item hitem) (hrest.stopsAt rfl rfl)
    rw [toList_dataLiteral_array, List.cons_append, List.append_assoc, List.singleton_append,
      value?, skipBlanks_cons rfl]
    dsimp only
    rw [if_neg (by decide), if_pos rfl, list?_commaList rfl (by decide)
      (fun item _ ↦ exists_first_not_blank item rfl) hitems
      (Nat.lt_succ_of_le (length_le_commaList _ items ']' rest))]
    rw [if_congr narrowIntegers_array_iff rfl rfl]
    split <;> rfl
  | object members =>
    have hmembers : ∀ entry ∈ members, ∀ rest, EndsElement '\x7d' rest →
        member? (value? depth) (memberText entry ++ rest) =
          if NarrowIntegers entry.2 then some (entry, rest) else none := by
      intro entry hentry rest hrest
      have hlt : entry.2.height < depth := by
        rw [Json.height] at hdepth
        exact (height_entry_le hentry).trans_lt (Nat.lt_of_succ_lt_succ hdepth)
      exact member?_memberText (value?_blank depth)
        (ih hlt (finiteNumbers_entry hfinite entry hentry)
          (membersWellFormed_iff.mp hwell.2 entry hentry) (hrest.stopsAt rfl rfl))
    have hfirst : ∀ entry ∈ members, ∃ c more, memberText entry = c :: more ∧ c ≠ '\x7d' ∧
        isBlank c = false := by
      intro entry _
      rw [memberText, toList_quote]
      exact ⟨'"', _, rfl, by decide, rfl⟩
    have hinsert : Members.extend [] members = members := Members.extend_of_nodup hwell.1
    rw [toList_dataLiteral_object, List.cons_append, List.append_assoc, List.singleton_append,
      value?, skipBlanks_cons rfl]
    dsimp only
    rw [if_neg (by decide), if_neg (by decide), if_pos rfl, list?_commaList rfl (by decide) hfirst
      hmembers (Nat.lt_succ_of_le (length_le_commaList _ members '\x7d' rest)),
      if_congr narrowIntegers_object_iff rfl rfl]
    split
    · rw [Option.map_some, hinsert]
    · rfl

theorem height_le_length (value : Json) : value.height ≤ (dataLiteral value).toList.length := by
  induction hheight : value.height using Nat.strongRecOn generalizing value with
  | ind height ih =>
  cases value with
  | array items =>
    rw [Json.height] at hheight
    have hitems : heightOfItems items ≤
        (commaList (fun item ↦ (dataLiteral item).toList) items).length := by
      refine heightOfItems_le_iff.mpr fun item hitem ↦ ?_
      have hlt : item.height < height := by
        rw [← hheight]
        exact Nat.lt_succ_of_le (height_item_le hitem)
      exact (ih _ hlt item rfl).trans
        (length_le_commaList_of_mem (fun item ↦ (dataLiteral item).toList) hitem)
    rw [toList_dataLiteral_array, List.length_cons, List.length_append]
    omega
  | object members =>
    rw [Json.height] at hheight
    have hmembers : heightOfMembers members ≤ (commaList memberText members).length := by
      refine heightOfMembers_le_iff.mpr fun entry hentry ↦ ?_
      have hlt : entry.2.height < height := by
        rw [← hheight]
        exact Nat.lt_succ_of_le (height_entry_le hentry)
      have htext : (dataLiteral entry.2).toList.length ≤ (memberText entry).length := by
        simp only [memberText, List.length_append, List.length_cons]
        omega
      exact ((ih _ hlt entry.2 rfl).trans htext).trans (length_le_commaList_of_mem _ hentry)
    rw [toList_dataLiteral_object, List.length_cons, List.length_append]
    omega
  | _ => exact hheight ▸ Nat.zero_le _

/-- A data literal is read back as its value when every integer in it has 32 bits with its sign, and
it is refused otherwise. -/
theorem dataLiteral_reads_back {value : Json} (hfinite : value.FiniteNumbers)
    (hwell : value.WellFormed) :
    read? (dataLiteral value) = if NarrowIntegers value then some value else none := by
  have hdepth : value.height < (dataLiteral value).length + 1 := by
    rw [← String.length_toList]
    exact Nat.lt_succ_of_le (height_le_length value)
  have hread := value?_dataLiteral hdepth hfinite hwell (fun _ h ↦ nomatch h : StopsAt _ [])
  rw [List.append_nil] at hread
  rw [read?, hread]
  split <;> rfl

/-- A value with escapes, a negative integer and a fraction is read back. -/
theorem dataLiteral_reads_back_nested :
    let half : Binary64 := ⟨0x3FE0000000000000⟩
    let value : Json := object
      [("a\"\n", array [number (.integer (-2147483648)), number (.real half), .null])]
    value.FiniteNumbers ∧ value.WellFormed ∧ read? (dataLiteral value) = some value := by
  intro half value
  have hfinite : value.FiniteNumbers := by
    intro n hn
    have hscalars : value.scalars =
        {number (.integer (-2147483648)), number (.real half), .null} := rfl
    rw [hscalars] at hn
    simp only [Multiset.insert_eq_cons, Multiset.mem_cons, Multiset.mem_singleton, number.injEq,
      reduceCtorEq, or_false] at hn
    rcases hn with rfl | rfl
    · trivial
    · unfold Number.IsFinite Binary64.IsFinite
      decide
  have hwell : value.WellFormed := ⟨by decide, ⟨trivial, trivial, trivial, trivial⟩, trivial⟩
  have hnarrow : NarrowIntegers value := by decide
  exact ⟨hfinite, hwell, by rw [dataLiteral_reads_back hfinite hwell, if_pos hnarrow]⟩

/-- An integer that needs more than 32 bits is written without a suffix and is not read back. -/
theorem dataLiteral_wide_refused :
    let value : Json := number (.integer 3000000000)
    value.FiniteNumbers ∧ value.WellFormed ∧ dataLiteral value = "3000000000" ∧
      read? (dataLiteral value) = none := by
  intro value
  refine ⟨fun n hn ↦ ?_, trivial, rfl, by decide +kernel⟩
  have hsame : number n = number (.integer 3000000000) := Multiset.mem_singleton.mp hn
  cases hsame
  trivial

end ManifestTree.Source
