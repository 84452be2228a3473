import ManifestTree.Json.Text
import ManifestTree.Number.Digits
import ManifestTree.Proofs.ShortestDecimals
import Std.Data.String.ToInt

/-!
# Number texts determine finite numbers

The text of a finite number without its sign reads as a decimal that rounds to the number, whichever
of its three layouts it has. As no decimal rounds to two numbers, texts of different numbers differ;
the point or the exponent in it tells a binary64 number from an integer, and the sign of zero is
kept. Nothing is said about words that are not finite.
-/

namespace ManifestTree

/-! ## Reading digits -/

namespace Digits

theorem digit?_of_isDigit {c : Char} (h : c.isDigit) :
    digit? 10 c = some (c.toNat - '0'.toNat) := by
  have hrange : '0' ≤ c ∧ c ≤ '9' := by
    simpa [Char.isDigit, Char.le_def] using h
  have hvalue : c.toNat - '0'.toNat < 10 := by
    have hlast : c.toNat ≤ '9'.toNat := hrange.2
    have hnine : '9'.toNat = '0'.toNat + 9 := rfl
    omega
  simp only [digit?, if_pos hrange, Option.bind_eq_bind, Option.bind_some, if_pos hvalue]

theorem natural?_eq {cs : List Char} (hne : cs ≠ []) (h : ∀ c ∈ cs, c.isDigit) :
    natural? 10 cs = some (Nat.ofDigitChars 10 cs 0) := by
  have hvalues : ∀ cs : List Char, (∀ c ∈ cs, c.isDigit) →
      cs.mapM (digit? 10) = some (cs.map fun c ↦ c.toNat - '0'.toNat) := by
    intro cs h
    induction cs with
    | nil => rfl
    | cons c rest ih =>
      have hc := digit?_of_isDigit (h c List.mem_cons_self)
      have hrest := ih fun d hd ↦ h d (List.mem_cons_of_mem _ hd)
      simp [List.mapM_cons, hc, hrest]
  rw [natural?, List.isEmpty_eq_false_iff.mpr hne, hvalues cs h, if_neg (by decide),
    Option.map_some, List.foldl_map, Nat.ofDigitChars_eq_foldl]
  simp only [Nat.mul_comm]

theorem isDigit_of_mem_toDigits {n : ℕ} {c : Char} (h : c ∈ Nat.toDigits 10 n) : c.isDigit :=
  Nat.isDigit_of_mem_toDigits (by decide) (by decide) h

theorem natural?_toDigits (n : ℕ) : natural? 10 (Nat.toDigits 10 n) = some n := by
  rw [natural?_eq Nat.toDigits_ne_nil fun _ ↦ isDigit_of_mem_toDigits,
    Nat.ofDigitChars_ten_toDigits]

/-- The digits behind a point, and what follows them. -/
def fractionPart : List Char → List Char × List Char
  | '.' :: rest => (rest.takeWhile Char.isDigit, rest.dropWhile Char.isDigit)
  | rest => ([], rest)

def exponentPart? : List Char → Option ℤ
  | [] => some 0
  | letter :: rest => if letter = 'e' ∨ letter = 'E' then exponent? rest else none

/-- Reading a decimal number, with the parts of its text named. -/
theorem scaled?_eq_bind {cs whole fraction rest : List Char}
    (hwhole : cs.takeWhile Char.isDigit = whole)
    (hparts : fractionPart (cs.dropWhile Char.isDigit) = (fraction, rest)) :
    scaled? cs = (natural? 10 (whole ++ fraction)).bind fun mantissa ↦
      (exponentPart? rest).map fun exponent ↦
        (mantissa, (whole ++ fraction).length, exponent - (fraction.length : ℤ)) := by
  have hfraction : fraction = (fractionPart (cs.dropWhile Char.isDigit)).1 := by rw [hparts]
  have hrest : rest = (fractionPart (cs.dropWhile Char.isDigit)).2 := by rw [hparts]
  subst hwhole hfraction hrest
  unfold scaled?
  change (_ : Option ℕ).bind _ = _
  congr 1
  funext mantissa
  change (match (fractionPart (cs.dropWhile Char.isDigit)).2 with
    | [] => _
    | letter :: rest => _) = _
  cases (fractionPart (cs.dropWhile Char.isDigit)).2 with
  | nil => rfl
  | cons letter rest =>
    rw [exponentPart?]
    dsimp only
    split
    · cases exponent? rest <;> rfl
    · rfl

def isNumberChar (c : Char) : Bool :=
  c.isDigit || c == '-' || c == '+' || c == '.' || c == 'e'

theorem isNumberChar_of_isDigit {c : Char} (h : c.isDigit) : isNumberChar c := by
  simp [isNumberChar, h]

theorem exponent?_sign (exponent : ℤ) :
    exponent? ((if exponent < 0 then "-" else "+") ++ toString exponent.natAbs).toList =
      some exponent := by
  have hdigits : (toString exponent.natAbs).toList = Nat.toDigits 10 exponent.natAbs := by
    rw [Nat.toString_eq_ofList_toDigits, String.toList_ofList]
  rw [String.toList_append, hdigits]
  split
  · next h => simp [exponent?, unsigned, natural?_toDigits, abs_of_neg h]
  · next h => simp [exponent?, unsigned, natural?_toDigits, abs_of_nonneg (not_lt.mp h)]

theorem isNumberChar_sign (exponent : ℤ) :
    ∀ c ∈ ((if exponent < 0 then "-" else "+") ++ toString exponent.natAbs).toList,
      isNumberChar c := by
  rw [String.toList_append, Nat.toString_eq_ofList_toDigits, String.toList_ofList]
  refine List.forall_mem_append.mpr
    ⟨?_, fun _ hc ↦ isNumberChar_of_isDigit (isDigit_of_mem_toDigits hc)⟩
  split
  · exact List.forall_mem_singleton.mpr rfl
  · exact List.forall_mem_singleton.mpr rfl

/-- A decimal text taken apart: digits, a fraction or an exponent or both. -/
structure Spelling where
  whole : List Char
  /-- The digits behind the point, which is left out when there are none. -/
  fraction : List Char
  tail : List Char
  exponent : ℤ
  whole_ne_nil : whole ≠ []
  isDigit : ∀ c ∈ whole ++ fraction, c.isDigit
  exponentPart_tail : exponentPart? tail = some exponent
  isNumberChar_tail : ∀ c ∈ tail, isNumberChar c
  marked : fraction ≠ [] ∨ tail ≠ []

namespace Spelling

variable (s : Spelling)

def point : List Char := if s.fraction.isEmpty then [] else '.' :: s.fraction

def text : List Char := s.whole ++ (s.point ++ s.tail)

def value : ℚ :=
  (Nat.ofDigitChars 10 (s.whole ++ s.fraction) 0 : ℚ) * 10 ^ (s.exponent - s.fraction.length)

theorem tail_spec : s.tail.takeWhile Char.isDigit = [] ∧ s.tail.dropWhile Char.isDigit = s.tail ∧
    fractionPart s.tail = ([], s.tail) := by
  have htail := s.exponentPart_tail
  cases heq : s.tail with
  | nil => exact ⟨rfl, rfl, rfl⟩
  | cons letter rest =>
    rw [heq, exponentPart?] at htail
    split at htail
    · next hletter => rcases hletter with rfl | rfl <;> exact ⟨rfl, rfl, rfl⟩
    · cases htail

theorem point_spec : (s.point ++ s.tail).takeWhile Char.isDigit = [] ∧
    fractionPart ((s.point ++ s.tail).dropWhile Char.isDigit) = (s.fraction, s.tail) := by
  obtain ⟨htake, hdrop, hpart⟩ := s.tail_spec
  have hdigits := (List.forall_mem_append.mp s.isDigit).2
  rw [point]
  cases hfraction : s.fraction with
  | nil =>
    rw [List.isEmpty_nil, if_pos rfl, List.nil_append, hdrop]
    exact ⟨htake, hpart⟩
  | cons c rest =>
    have hpoint (rest : List Char) : ('.' :: rest).takeWhile Char.isDigit = [] ∧
        ('.' :: rest).dropWhile Char.isDigit = '.' :: rest := ⟨rfl, rfl⟩
    rw [hfraction] at hdigits
    rw [List.isEmpty_cons, if_neg (by decide), List.cons_append, (hpoint _).2, fractionPart,
      List.takeWhile_append_of_pos hdigits, List.dropWhile_append_of_pos hdigits, htake, hdrop,
      List.append_nil]
    exact ⟨rfl, rfl⟩

/-- A spelling reads as its digits and the power of ten of the last. -/
theorem scaled?_text : scaled? s.text = some (Nat.ofDigitChars 10 (s.whole ++ s.fraction) 0,
    (s.whole ++ s.fraction).length, s.exponent - s.fraction.length) := by
  have hwhole := (List.forall_mem_append.mp s.isDigit).1
  obtain ⟨htake, hparts⟩ := s.point_spec
  have hfront : s.text.takeWhile Char.isDigit = s.whole := by
    rw [text, List.takeWhile_append_of_pos hwhole, htake, List.append_nil]
  rw [← List.dropWhile_append_of_pos hwhole] at hparts
  rw [scaled?_eq_bind hfront hparts, s.exponentPart_tail,
    natural?_eq (by simp [s.whole_ne_nil]) s.isDigit]
  rfl

variable {s}

/-- The text determines the number that is spelled. -/
theorem value_eq {other : Spelling} (h : s.text = other.text) : s.value = other.value := by
  have hscaled := s.scaled?_text.symm.trans ((congrArg scaled? h).trans other.scaled?_text)
  rw [Option.some.injEq, Prod.mk.injEq, Prod.mk.injEq] at hscaled
  rw [value, value, hscaled.1, hscaled.2.2]

theorem isNumberChar_of_mem_text : ∀ c ∈ s.text, isNumberChar c := by
  obtain ⟨hwhole, hfraction⟩ := List.forall_mem_append.mp s.isDigit
  have hpoint : ∀ c ∈ s.point, isNumberChar c := by
    rw [point]
    split
    · exact fun _ hc ↦ nomatch hc
    · exact List.forall_mem_cons.mpr ⟨rfl, fun c hc ↦ isNumberChar_of_isDigit (hfraction c hc)⟩
  exact List.forall_mem_append.mpr ⟨fun c hc ↦ isNumberChar_of_isDigit (hwhole c hc),
    List.forall_mem_append.mpr ⟨hpoint, s.isNumberChar_tail⟩⟩

/-- Some character is neither a digit nor a minus sign. -/
theorem exists_mark : ∃ c ∈ s.text, c.isDigit = false ∧ c ≠ '-' := by
  rcases s.marked with hfraction | htail
  · have hpoint : '.' ∈ s.point := by
      rw [point, List.isEmpty_eq_false_iff.mpr hfraction]
      exact List.mem_cons_self
    exact ⟨'.', List.mem_append_right _ (List.mem_append_left _ hpoint), rfl, by decide⟩
  · have hread := s.exponentPart_tail
    obtain ⟨letter, rest, heq⟩ := List.exists_cons_of_ne_nil htail
    rw [heq, exponentPart?] at hread
    have hmem : letter ∈ s.text :=
      List.mem_append_right _ (List.mem_append_right _ (heq ▸ List.mem_cons_self))
    split at hread
    · next hletter => exact ⟨letter, hmem, by rcases hletter with rfl | rfl <;> decide⟩
    · cases hread

theorem text_ne_minus (cs : List Char) : s.text ≠ '-' :: cs := by
  intro h
  obtain ⟨c, rest, heq⟩ := List.exists_cons_of_ne_nil s.whole_ne_nil
  have hdigit : c.isDigit := s.isDigit c (by simp [heq])
  rw [text, heq, List.cons_append, List.cons.injEq] at h
  rw [h.1] at hdigit
  cases hdigit

def ofPoint {whole fraction : List Char} (hwhole : whole ≠ []) (hfraction : fraction ≠ [])
    (h : ∀ c ∈ whole ++ fraction, c.isDigit) : Spelling where
  whole := whole
  fraction := fraction
  tail := []
  exponent := 0
  whole_ne_nil := hwhole
  isDigit := h
  exponentPart_tail := rfl
  isNumberChar_tail := fun _ hc ↦ nomatch hc
  marked := .inl hfraction

theorem text_ofPoint {whole fraction : List Char} (hwhole : whole ≠ []) (hfraction : fraction ≠ [])
    (h : ∀ c ∈ whole ++ fraction, c.isDigit) :
    (ofPoint hwhole hfraction h).text = whole ++ '.' :: fraction := by
  simp [ofPoint, text, point, hfraction]

def ofExponent {whole : List Char} (fraction : List Char) (exponent : ℤ) (hwhole : whole ≠ [])
    (h : ∀ c ∈ whole ++ fraction, c.isDigit) : Spelling where
  whole := whole
  fraction := fraction
  tail := 'e' :: ((if exponent < 0 then "-" else "+") ++ toString exponent.natAbs).toList
  exponent := exponent
  whole_ne_nil := hwhole
  isDigit := h
  exponentPart_tail := exponent?_sign exponent
  isNumberChar_tail := List.forall_mem_cons.mpr ⟨rfl, isNumberChar_sign exponent⟩
  marked := .inr (List.cons_ne_nil _ _)

end Spelling

def Spells (cs : List Char) (q : ℚ) : Prop := ∃ s : Spelling, s.text = cs ∧ s.value = q

end Digits

namespace Decimal

open Binary64 Digits

/-! ## Layouts -/

section Layouts

variable {digits : List Char}

theorem isDigit_zeros_append {zeros : ℕ} (h : ∀ c ∈ digits, c.isDigit) :
    ∀ c ∈ List.replicate zeros '0' ++ digits, c.isDigit :=
  List.forall_mem_append.mpr ⟨fun _ hc ↦ List.eq_of_mem_replicate hc ▸ rfl, h⟩

/-- Zeros between the point and the digits. -/
theorem spells_behind_zeros (hne : digits ≠ []) (hdigits : ∀ c ∈ digits, c.isDigit) (zeros : ℕ) :
    Spells ('0' :: '.' :: (List.replicate zeros '0' ++ digits))
      (Nat.ofDigitChars 10 digits 0 * 10 ^ (-(zeros + digits.length) : ℤ)) := by
  refine ⟨.ofPoint (List.cons_ne_nil '0' []) (List.append_ne_nil_of_right_ne_nil _ hne)
    (List.forall_mem_cons.mpr ⟨rfl, isDigit_zeros_append hdigits⟩), Spelling.text_ofPoint _ _ _, ?_⟩
  · have hzero : Nat.ofDigitChars 10 ['0'] 0 = 0 := rfl
    rw [Spelling.value, Spelling.ofPoint, Nat.ofDigitChars_append, hzero, Nat.ofDigitChars_append,
      Nat.ofDigitChars_replicate_zero, Nat.mul_zero, List.length_append, List.length_replicate]
    congr 2
    dsimp only
    omega

/-- The point among the digits. -/
theorem spells_split (hdigits : ∀ c ∈ digits, c.isDigit) {count : ℕ} (hpos : 0 < count)
    (hcount : count < digits.length) :
    Spells (digits.take count ++ '.' :: digits.drop count)
      (Nat.ofDigitChars 10 digits 0 * 10 ^ ((count : ℤ) - digits.length)) := by
  have hdrop : digits.drop count ≠ [] := by simpa using hcount
  have htake : digits.take count ≠ [] := by
    intro hnil
    have hlength := congrArg List.length hnil
    rw [List.length_take, List.length_nil] at hlength
    omega
  have hboth : ∀ c ∈ digits.take count ++ digits.drop count, c.isDigit := by
    rwa [List.take_append_drop]
  refine ⟨.ofPoint htake hdrop hboth, Spelling.text_ofPoint _ _ _, ?_⟩
  rw [Spelling.value, Spelling.ofPoint, List.take_append_drop, List.length_drop]
  congr 2
  dsimp only
  omega

/-- Zeros between the digits and the point. -/
theorem spells_before_zeros (hne : digits ≠ []) (hdigits : ∀ c ∈ digits, c.isDigit) (zeros : ℕ) :
    Spells (digits ++ List.replicate zeros '0' ++ ['.', '0'])
      (Nat.ofDigitChars 10 digits 0 * 10 ^ zeros) := by
  have hall : ∀ c ∈ digits ++ List.replicate zeros '0' ++ ['0'], c.isDigit := by
    rw [List.append_assoc]
    exact List.forall_mem_append.mpr ⟨hdigits, isDigit_zeros_append (by simp)⟩
  have hlast (n : ℕ) : Nat.ofDigitChars 10 ['0'] n = 10 * n := rfl
  refine ⟨.ofPoint (List.append_ne_nil_of_left_ne_nil hne _) (List.cons_ne_nil _ _) hall,
    Spelling.text_ofPoint _ _ _, ?_⟩
  rw [Spelling.value, Spelling.ofPoint, Nat.ofDigitChars_append, hlast, Nat.ofDigitChars_append,
    Nat.ofDigitChars_replicate_zero]
  push_cast
  norm_num
  ring

/-- One digit in front of the point, and an exponent. -/
theorem spells_scientific (hne : digits ≠ []) (hdigits : ∀ c ∈ digits, c.isDigit) (exponent : ℤ) :
    Spells (digits.take 1 ++ ((if (digits.drop 1).isEmpty then [] else '.' :: digits.drop 1) ++
        'e' :: ((if exponent < 0 then "-" else "+") ++ toString exponent.natAbs).toList))
      (Nat.ofDigitChars 10 digits 0 * 10 ^ (exponent - digits.length + 1)) := by
  have hpos : 0 < digits.length := List.length_pos_iff.mpr hne
  have hboth : ∀ c ∈ digits.take 1 ++ digits.drop 1, c.isDigit := by
    rwa [List.take_append_drop]
  refine ⟨.ofExponent (digits.drop 1) exponent (by simpa using hne) hboth, rfl, ?_⟩
  rw [Spelling.value, Spelling.ofExponent, List.take_append_drop, List.length_drop]
  congr 2
  dsimp only
  omega

end Layouts

/-- Every layout of a decimal spells its value. -/
theorem spells_write (number : Decimal) : Spells (dataLayout.write number).toList number.value := by
  obtain ⟨size, exponent⟩ := number
  have hread : Nat.ofDigitChars 10 (Nat.toDigits 10 size) 0 = size := Nat.ofDigitChars_ten_toDigits
  have hdigits : ∀ c ∈ Nat.toDigits 10 size, c.isDigit := fun _ ↦ isDigit_of_mem_toDigits
  have hne : Nat.toDigits 10 size ≠ [] := Nat.toDigits_ne_nil
  rw [Layout.write, value]
  dsimp only
  generalize Nat.toDigits 10 size = digits at *
  rw [← hread]
  split
  · split
    · next hnegative =>
      have hexponent : exponent - digits.length + 1 =
          -(((-exponent).toNat - 1 : ℕ) + digits.length : ℤ) := by omega
      rw [hexponent]
      simpa using spells_behind_zeros hne hdigits ((-exponent).toNat - 1)
    · next hpositive =>
      obtain ⟨shift, rfl⟩ := Int.eq_ofNat_of_zero_le (Int.not_lt.mp hpositive)
      rcases Nat.lt_or_ge (shift + 1) digits.length with hlong | hshort
      · have hpad : shift + 1 - digits.length = 0 := by omega
        have hdrop : digits.drop (shift + 1) ≠ [] := by simpa using hlong
        have hexponent : (shift : ℤ) - digits.length + 1 =
            ((shift + 1 : ℕ) : ℤ) - digits.length := by
          omega
        rw [hexponent]
        simpa [hpad, hdrop] using spells_split hdigits (Nat.succ_pos shift) hlong
      · have hlength : (digits ++ List.replicate (shift + 1 - digits.length) '0').length =
            shift + 1 := by
          rw [List.length_append, List.length_replicate]
          omega
        have hexponent : (shift : ℤ) - digits.length + 1 = (shift + 1 - digits.length : ℕ) := by
          omega
        rw [Int.toNat_natCast, List.drop_of_length_le hlength.le, List.take_of_length_le hlength.le,
          hexponent, zpow_natCast]
        simpa using spells_before_zeros hne hdigits (shift + 1 - digits.length)
  · have hspells := spells_scientific hne hdigits exponent
    have hpoint : (if (digits.drop 1).isEmpty then "" else
        "." ++ String.ofList (digits.drop 1)).toList =
          if (digits.drop 1).isEmpty then [] else '.' :: digits.drop 1 := by
      split <;> simp
    simp only [String.toList_append, String.toList_ofList, List.append_assoc, hpoint] at hspells ⊢
    exact hspells

/-! ## Binary64 texts -/

theorem roundsTo_zero : RoundsTo 0 0 where
  low_le := by
    have hlow : lowUnits 0 = 0 := rfl
    rw [hlow, Nat.cast_zero, zero_mul]
  le_high := by
    rw [zero_mul]
    exact Nat.cast_nonneg _
  inside := fun h ↦ absurd h (by decide)

/-- The text of a number is its sign and a decimal, which rounds to the number if that is finite. -/
theorem text_eq_sign_append (x : Binary64) : ∃ s : Spelling,
    (dataLayout.text x).toList = (if x.isNegative then ['-'] else []) ++ s.text ∧
      (x.IsFinite → RoundsTo x.magnitudeBits s.value) := by
  have hsign : (if x.isNegative then "-" else "").toList =
      if x.isNegative then ['-'] else [] := by
    split <;> rfl
  cases hzero : x.isZero with
  | true =>
    have hbits : x.magnitudeBits = 0 := by simpa [isZero] using hzero
    have hdigits : ∀ c ∈ ['0'], c.isDigit := by simp
    obtain ⟨s, htext, hvalue⟩ := spells_before_zeros (List.cons_ne_nil _ _) hdigits 0
    refine ⟨s, ?_, fun _ ↦ ?_⟩
    · rw [Layout.text, hzero, htext]
      simp [hsign]
    · rw [hvalue, hbits]
      simpa [Nat.ofDigitChars] using roundsTo_zero
  | false =>
    obtain ⟨s, htext, hvalue⟩ := spells_write (shortest x)
    refine ⟨s, ?_, fun hfinite ↦ hvalue ▸ roundsTo_value_shortest hfinite hzero⟩
    rw [Layout.text, hzero, htext]
    simp [hsign]

/-- Sign and magnitude make the number. -/
theorem eq_of_sign_of_magnitude {x y : Binary64} (hsign : x.isNegative = y.isNegative)
    (hmagnitude : x.magnitudeBits = y.magnitudeBits) : x = y := by
  have hiff : x.bits.toNat ≥ signBit ↔ y.bits.toNat ≥ signBit := decide_eq_decide.mp hsign
  have hmod : x.bits.toNat % signBit = y.bits.toNat % signBit := hmagnitude
  have hx := x.bits.toNat_lt
  have hy := y.bits.toNat_lt
  have hbit : signBit = 9223372036854775808 := rfl
  rw [hbit] at hiff hmod
  have hbits : x.bits.toNat = y.bits.toNat := by omega
  exact congrArg Binary64.mk (UInt64.toNat_inj.mp hbits)

/-- Texts of different finite numbers differ. -/
theorem text_injective {x y : Binary64} (hx : x.IsFinite) (hy : y.IsFinite)
    (h : dataLayout.text x = dataLayout.text y) : x = y := by
  obtain ⟨s, htext, hrounds⟩ := text_eq_sign_append x
  obtain ⟨s', htext', hrounds'⟩ := text_eq_sign_append y
  have heq := htext.symm.trans ((congrArg String.toList h).trans htext')
  have hbody : x.isNegative = y.isNegative ∧ s.text = s'.text := by
    cases hxsign : x.isNegative <;> cases hysign : y.isNegative <;>
      simp only [hxsign, hysign, if_true, Bool.false_eq_true, if_false, List.nil_append,
        List.cons_append, List.cons.injEq, true_and] at heq
    · exact ⟨rfl, heq⟩
    · exact absurd heq (Spelling.text_ne_minus _)
    · exact absurd heq.symm (Spelling.text_ne_minus _)
    · exact ⟨rfl, heq⟩
  obtain ⟨hsign, hsame⟩ := hbody
  have hvalue := Spelling.value_eq hsame ▸ hrounds hx
  exact eq_of_sign_of_magnitude hsign (hvalue.unique (hrounds' hy))

end Decimal

/-! ## Number texts -/

/-- Every integer, and the binary64 numbers that are finite. -/
def Number.IsFinite : Number → Prop
  | .integer _ => True
  | .real x => x.IsFinite

namespace Json

open Decimal Digits

/-- The text of an integer has digits only, behind a minus sign or not. -/
theorem integerText (value : ℤ) : (toString value).toList ≠ [] ∧
    ∀ c ∈ (toString value).toList, c.isDigit ∨ c = '-' := by
  have hdigits (size : ℕ) : ∀ c ∈ size.repr.toList, c.isDigit := by
    rw [Nat.toList_repr]
    exact fun _ ↦ isDigit_of_mem_toDigits
  rw [Int.toString_eq_repr, Int.repr_eq_if]
  split
  · refine ⟨?_, fun c hc ↦ .inl (hdigits _ c hc)⟩
    rw [Nat.toList_repr]
    exact Nat.toDigits_ne_nil
  · rw [String.toList_append]
    refine ⟨List.append_ne_nil_of_left_ne_nil (by decide) _, fun c hc ↦ ?_⟩
    rcases List.mem_append.mp hc with hsign | hdigit
    · exact .inr (List.mem_singleton.mp hsign)
    · exact .inl (hdigits _ c hdigit)

theorem isNumberChar_of_mem_numberText (n : Number) :
    ∀ c ∈ (numberText dataLayout n).toList, isNumberChar c := by
  cases n with
  | integer value =>
    intro c hc
    rcases (integerText value).2 c hc with hdigit | rfl
    · exact isNumberChar_of_isDigit hdigit
    · rfl
  | real x =>
    obtain ⟨s, htext, -⟩ := text_eq_sign_append x
    rw [numberText, htext]
    refine List.forall_mem_append.mpr ⟨?_, Spelling.isNumberChar_of_mem_text⟩
    split
    · exact List.forall_mem_singleton.mpr rfl
    · exact fun _ hc ↦ nomatch hc

/-- A binary64 number is not written like an integer. -/
theorem text_ne_integerText (x : Binary64) (value : ℤ) :
    dataLayout.text x ≠ toString value := by
  intro h
  obtain ⟨s, htext, -⟩ := text_eq_sign_append x
  obtain ⟨c, hmem, hdigit, hminus⟩ := s.exists_mark
  have hc : c ∈ (toString value).toList := by
    rw [← h, htext]
    exact List.mem_append_right _ hmem
  rcases (integerText value).2 c hc with hdigit' | rfl
  · rw [hdigit] at hdigit'
    cases hdigit'
  · exact hminus rfl

theorem numberText_ne_empty (n : Number) : (numberText dataLayout n).toList ≠ [] := by
  cases n with
  | integer value => exact (integerText value).1
  | real x =>
    obtain ⟨s, htext, -⟩ := text_eq_sign_append x
    obtain ⟨c, hmem, -⟩ := s.exists_mark
    rw [numberText, htext]
    exact List.append_ne_nil_of_right_ne_nil _ (List.ne_nil_of_mem hmem)

/-- Texts of different finite numbers differ, and so do those of an integer and a real. -/
theorem numberText_injective {m n : Number} (hm : m.IsFinite) (hn : n.IsFinite)
    (h : numberText dataLayout m = numberText dataLayout n) : m = n := by
  cases m with
  | integer value =>
    cases n with
    | integer other =>
      rw [numberText, numberText, Int.toString_eq_repr, Int.toString_eq_repr] at h
      rw [Int.repr_injective h]
    | real y => exact absurd h.symm (text_ne_integerText y value)
  | real x =>
    cases n with
    | integer other => exact absurd h (text_ne_integerText x other)
    | real y => rw [text_injective hm hn h]

end Json

end ManifestTree
