import ManifestTree.Proofs.NumberText
import ManifestTree.Proofs.QuotedText
import ManifestTree.Proofs.Scalars

/-!
# Data literals determine their values

The first character of a data literal tells what sort of value it writes, quotes and brackets show
where strings and collections end, and a number ends before the first character that no number has.
So a data literal and what follows it determine the value, with the order of its keys. Only finite
numbers are considered.
-/

namespace ManifestTree

namespace Json

def FiniteNumbers (value : Json) : Prop := ∀ n, number n ∈ value.scalars → n.IsFinite

section FiniteNumbers

variable {items : List Json} {members : Members}

theorem finiteNumbers_item (h : (array items).FiniteNumbers) :
    ∀ item ∈ items, item.FiniteNumbers := by
  intro item hitem n hn
  obtain ⟨position, hget⟩ := List.getElem?_of_mem hitem
  apply h n
  rw [scalars_array, gatherItems_eraseIdx scalar hget]
  exact Multiset.mem_add.mpr (.inl hn)

theorem finiteNumbers_entry (h : (object members).FiniteNumbers) :
    ∀ entry ∈ members, entry.2.FiniteNumbers := by
  intro entry hentry n hn
  obtain ⟨front, back, rfl⟩ := List.append_of_mem hentry
  apply h n
  rw [scalars_object, gatherMembers_append, gatherMembers]
  exact Multiset.mem_add.mpr (.inr (Multiset.mem_add.mpr (.inl hn)))

theorem finiteNumbers_tail {entry : String × Json} (h : (object (entry :: members)).FiniteNumbers) :
    (object members).FiniteNumbers := by
  intro n hn
  apply h n
  rw [scalars_object_cons]
  exact Multiset.mem_add.mpr (.inr hn)

theorem isFinite_of_finiteNumbers {n : Number} (h : (number n).FiniteNumbers) : n.IsFinite :=
  h n (Multiset.mem_singleton_self _)

end FiniteNumbers

end Json

namespace Source

open Digits Json

/-- A number text ends before the first character that no number text has. -/
theorem numberText_delimited {m n : Number} {rest more : List Char} (hm : m.IsFinite)
    (hn : n.IsFinite) (hrest : StopsAt isNumberChar rest) (hmore : StopsAt isNumberChar more)
    (h : (numberText Decimal.dataLayout m).toList ++ rest =
      (numberText Decimal.dataLayout n).toList ++ more) : m = n ∧ rest = more := by
  obtain ⟨htext, hback⟩ := eq_of_run_append (isNumberChar_of_mem_numberText m)
    (isNumberChar_of_mem_numberText n) hrest hmore h
  exact ⟨numberText_injective hm hn (String.toList_inj.mp htext), hback⟩

/-! ## First characters -/

/-- What sort of value a data literal with a first character writes. -/
def kindOfFirst? (c : Char) : Option Kind :=
  if c = 'n' then some .null
  else if c = 't' ∨ c = 'f' then some .boolean
  else if c = '"' then some .string
  else if c = '[' then some .array
  else if c = '\x7b' then some .object
  else if isNumberChar c then some .number
  else none

theorem kindOfFirst?_of_isNumberChar {c : Char} (h : isNumberChar c) :
    kindOfFirst? c = some .number := by
  have hne {d : Char} (hd : isNumberChar d = false) : c ≠ d := by
    rintro rfl
    cases hd.symm.trans h
  rw [kindOfFirst?, if_neg (hne rfl), if_neg (not_or.mpr ⟨hne rfl, hne rfl⟩), if_neg (hne rfl),
    if_neg (hne rfl), if_neg (hne rfl), if_pos h]

theorem exists_first (value : Json) : ∃ c rest, (dataLiteral value).toList = c :: rest ∧
    kindOfFirst? c = some value.kind := by
  cases value with
  | null => exact ⟨'n', _, rfl, rfl⟩
  | bool value => cases value <;> exact ⟨_, _, rfl, rfl⟩
  | number value =>
    rw [dataLiteral]
    cases htext : (numberText Decimal.dataLayout value).toList with
    | nil => exact absurd htext (numberText_ne_empty value)
    | cons c rest =>
      refine ⟨c, rest, rfl, kindOfFirst?_of_isNumberChar ?_⟩
      exact isNumberChar_of_mem_numberText value c (htext ▸ List.mem_cons_self)
  | string value =>
    rw [dataLiteral, toList_quote]
    exact ⟨_, _, rfl, rfl⟩
  | array items =>
    rw [dataLiteral, String.append_assoc, String.toList_append]
    exact ⟨_, _, rfl, rfl⟩
  | object members =>
    rw [dataLiteral, String.append_assoc, String.toList_append]
    exact ⟨_, _, rfl, rfl⟩

theorem kind_eq_of_dataLiteral {x y : Json} {rest more : List Char}
    (h : (dataLiteral x).toList ++ rest = (dataLiteral y).toList ++ more) : x.kind = y.kind := by
  obtain ⟨c, front, hx, hc⟩ := exists_first x
  obtain ⟨d, back, hy, hd⟩ := exists_first y
  rw [hx, hy, List.cons_append, List.cons_append, List.cons.injEq] at h
  rw [h.1, hd, Option.some.injEq] at hc
  exact hc.symm

/-- No data literal begins like the end of a collection. -/
theorem dataLiteral_append_ne {value : Json} {rest more : List Char} {close : Char}
    (hclose : kindOfFirst? close = none) : (dataLiteral value).toList ++ rest ≠ close :: more := by
  intro h
  obtain ⟨c, front, hvalue, hc⟩ := exists_first value
  rw [hvalue, List.cons_append, List.cons.injEq] at h
  rw [h.1, hclose] at hc
  cases hc

/-! ## Collections -/

theorem toList_dataLiteral_array (items : List Json) : (dataLiteral (array items)).toList =
    '[' :: (commaList (fun item ↦ (dataLiteral item).toList) items ++ [']']) := by
  have htail (item : Json) (rest : List Json) : (itemLiterals (item :: rest)).toList =
      (dataLiteral item).toList ++ commaTail (fun item ↦ (dataLiteral item).toList) rest := by
    induction rest generalizing item with
    | nil => simp [itemLiterals, commaTail]
    | cons next rest ih => simp [itemLiterals, commaTail, ih]
  cases items with
  | nil => rfl
  | cons item rest => simp [dataLiteral, htail, commaList]

def memberText (entry : String × Json) : List Char :=
  (quote entry.1).toList ++ ':' :: ' ' :: (dataLiteral entry.2).toList

theorem toList_dataLiteral_object (members : Members) : (dataLiteral (object members)).toList =
    '\x7b' :: (commaList memberText members ++ ['\x7d']) := by
  have htail (entry : String × Json) (rest : Members) : (memberLiterals (entry :: rest)).toList =
      memberText entry ++ commaTail memberText rest := by
    induction rest generalizing entry with
    | nil => simp [memberLiterals, commaTail, memberText]
    | cons next rest ih => simp [memberLiterals, commaTail, memberText, ih]
  cases members with
  | nil => rfl
  | cons entry rest => simp [dataLiteral, htail, commaList]

/-! ## Data literals -/

theorem boolText_delimited {value other : Bool} {rest more : List Char}
    (h : (boolText value).toList ++ rest = (boolText other).toList ++ more) :
    value = other ∧ rest = more := by
  cases value <;> cases other
  · exact ⟨rfl, List.append_cancel_left h⟩
  · cases h
  · cases h
  · exact ⟨rfl, List.append_cancel_left h⟩

theorem memberText_append_ne (entry : String × Json) (rest more : List Char) :
    memberText entry ++ rest ≠ '\x7d' :: more := by
  intro h
  simp only [memberText, toList_quote, List.cons_append, List.cons.injEq] at h
  exact absurd h.1 (by decide)

/-- A data literal and what follows it determine the value, unless a number could go on. The
induction is on the height, as the elements of a collection are less high. -/
theorem dataLiteral_delimited {x y : Json} {rest more : List Char} (hx : x.FiniteNumbers)
    (hy : y.FiniteNumbers) (hrest : StopsAt isNumberChar rest) (hmore : StopsAt isNumberChar more)
    (h : (dataLiteral x).toList ++ rest = (dataLiteral y).toList ++ more) :
    x = y ∧ rest = more := by
  induction hheight : x.height using Nat.strongRecOn generalizing x y rest more with
  | ind height ih =>
  have hkind := kind_eq_of_dataLiteral h
  cases x with
  | null =>
    cases y <;> cases hkind
    exact ⟨rfl, List.append_cancel_left h⟩
  | bool value =>
    cases y with
    | bool other =>
      obtain ⟨rfl, hback⟩ := boolText_delimited h
      exact ⟨rfl, hback⟩
    | _ => cases hkind
  | number value =>
    cases y with
    | number other =>
      obtain ⟨rfl, hback⟩ := numberText_delimited (isFinite_of_finiteNumbers hx)
        (isFinite_of_finiteNumbers hy) hrest hmore h
      exact ⟨rfl, hback⟩
    | _ => cases hkind
  | string value =>
    cases y with
    | string other =>
      obtain ⟨rfl, hback⟩ := quote_delimited h
      exact ⟨rfl, hback⟩
    | _ => cases hkind
  | array items =>
    cases y with
    | array others =>
      have hitems : ∀ item ∈ items, ∀ other ∈ others, ∀ rest more, EndsElement ']' rest →
          EndsElement ']' more → (dataLiteral item).toList ++ rest =
            (dataLiteral other).toList ++ more → item = other ∧ rest = more := by
        intro item hitem other hother rest more hrest hmore h
        have hlt : item.height < height := by
          rw [← hheight, Json.height]
          exact Nat.lt_succ_of_le (height_item_le hitem)
        exact ih _ hlt (finiteNumbers_item hx item hitem) (finiteNumbers_item hy other hother)
          (hrest.stopsAt rfl rfl) (hmore.stopsAt rfl rfl) h rfl
      simp only [toList_dataLiteral_array, List.cons_append, List.append_assoc, List.nil_append,
        List.cons.injEq, true_and] at h
      obtain ⟨rfl, hback⟩ := commaList_delimited (by decide)
        (fun _ _ _ ↦ dataLiteral_append_ne rfl) hitems h
      exact ⟨rfl, hback⟩
    | _ => cases hkind
  | object members =>
    cases y with
    | object others =>
      have hmembers : ∀ entry ∈ members, ∀ other ∈ others, ∀ rest more, EndsElement '\x7d' rest →
          EndsElement '\x7d' more → memberText entry ++ rest = memberText other ++ more →
            entry = other ∧ rest = more := by
        intro entry hentry other hother rest more hrest hmore h
        have hlt : entry.2.height < height := by
          rw [← hheight, Json.height]
          exact Nat.lt_succ_of_le (height_entry_le hentry)
        simp only [memberText, List.append_assoc, List.cons_append] at h
        obtain ⟨hkey, hvalue⟩ := quote_delimited h
        obtain ⟨hvalue, hback⟩ := ih _ hlt (finiteNumbers_entry hx entry hentry)
          (finiteNumbers_entry hy other hother) (hrest.stopsAt rfl rfl) (hmore.stopsAt rfl rfl)
          (List.cons.inj (List.cons.inj hvalue).2).2 rfl
        exact ⟨Prod.ext hkey hvalue, hback⟩
      simp only [toList_dataLiteral_object, List.cons_append, List.append_assoc, List.nil_append,
        List.cons.injEq, true_and] at h
      obtain ⟨rfl, hback⟩ := commaList_delimited (by decide) memberText_append_ne hmembers h
      exact ⟨rfl, hback⟩
    | _ => cases hkind

end Source

end ManifestTree
