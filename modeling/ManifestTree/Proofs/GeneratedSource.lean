import ManifestTree.Proofs.DataLiterals
import ManifestTree.Proofs.TypeConstants
import ManifestTree.Source.Program

/-!
# Generated source determines the tree

The expression of an element or a literal is a chain of builder calls, each on a line of its own and
closed by its parenthesis, with the expressions of its children inside the calls that add them. Read
at the depth where it was written, it determines the tree: types, tags, properties in their order,
paths, values and children. Left out are elements that carry a document as it is, literals that
append an item without a value, which are written as if they had the empty object, and fragments,
which are not written at all.
-/

namespace ManifestTree

namespace Outline

mutual

/-- No element carries a document as it is, every literal has a value, nothing is a fragment, and
all numbers are finite. -/
def Expressible : Outline → Prop
  | fragment _ => False
  | element type props _ children =>
    type ≠ TypeName.passthrough ∧ (Json.object props).FiniteNumbers ∧ AllExpressible children
  | literal _ value _ children =>
    (∃ inner, value = some inner ∧ inner.FiniteNumbers) ∧ AllExpressible children

def AllExpressible : List Outline → Prop
  | [] => True
  | outline :: rest => outline.Expressible ∧ AllExpressible rest

end

end Outline

namespace Source

open Digits Json

/-! ## Paths -/

theorem steps_eq_of_keysOnly {path : FieldPath} (h : path.keysOnly) :
    path.steps = (keysOf path).map Step.key := by
  rcases path with ⟨steps⟩
  induction steps with
  | nil => rfl
  | cons step rest ih =>
    obtain ⟨hstep, hrest⟩ := List.forall_mem_cons.mp (List.all_eq_true.mp h)
    cases step with
    | key name => exact congrArg (Step.key name :: ·) (ih (List.all_eq_true.mpr hrest))
    | index position => cases hstep

/-- String literals with a comma and a blank between them. -/
theorem toList_intercalate_quotes (names : List String) :
    (", ".intercalate (names.map quote)).toList =
      commaList (fun name ↦ (quote name).toList) names := by
  have htail (name : String) (rest : List String) :
      (", ".intercalate ((name :: rest).map quote)).toList =
        (quote name).toList ++ commaTail (fun name ↦ (quote name).toList) rest := by
    induction rest generalizing name with
    | nil => simp [commaTail]
    | cons next rest ih =>
      rw [List.map_cons, List.map_cons, String.intercalate_cons_cons, ← List.map_cons,
        String.toList_append, ih]
      simp [commaTail]
  cases names with
  | nil => rfl
  | cons name rest => rw [htail, commaList]

theorem quote_append_ne (name : String) (rest more : List Char) {close : Char} (h : '"' ≠ close) :
    (quote name).toList ++ rest ≠ close :: more := by
  rw [toList_quote, List.cons_append]
  exact fun heq ↦ h (List.cons.inj heq).1

/-- The digits of an index end before the parenthesis. -/
theorem index_delimited {position other : ℕ} {rest more : List Char}
    (h : (toString position).toList ++ ')' :: rest = (toString other).toList ++ ')' :: more) :
    position = other ∧ rest = more := by
  have hdigits (n : ℕ) : ∀ c ∈ (toString n).toList, c.isDigit := by
    rw [Nat.toString_eq_repr, Nat.toList_repr]
    exact fun _ ↦ isDigit_of_mem_toDigits
  have hclose (n : ℕ) : ')' ∉ (toString n).toList := fun hmem ↦ nomatch hdigits n _ hmem
  obtain ⟨htext, hback⟩ := eq_of_append_close (hclose position) (hclose other) h
  rw [String.toList_inj, Nat.toString_eq_repr, Nat.toString_eq_repr] at htext
  exact ⟨Nat.repr_injective htext, hback⟩

theorem stepCalls_key (name : String) (steps : List Step) :
    stepCalls (.key name :: steps) = ".child_key(" ++ quote name ++ ")" ++ stepCalls steps := rfl

theorem stepCalls_index (position : ℕ) (steps : List Step) :
    stepCalls (.index position :: steps) =
      ".child_index(" ++ toString position ++ ")" ++ stepCalls steps := rfl

theorem stepCalls_ne_of_stopsAt (step : Step) (steps : List Step) {rest more : List Char}
    (hrest : StopsAt (· == '.') rest) : rest ≠ (stepCalls (step :: steps)).toList ++ more := by
  cases step with
  | key name =>
    rw [stepCalls_key, String.append_assoc, String.append_assoc, String.toList_append,
      List.append_assoc]
    exact hrest.ne_append rfl _
  | index position =>
    rw [stepCalls_index, String.append_assoc, String.append_assoc, String.toList_append,
      List.append_assoc]
    exact hrest.ne_append rfl _

theorem stepCalls_delimited {steps others : List Step} {rest more : List Char}
    (hrest : StopsAt (· == '.') rest) (hmore : StopsAt (· == '.') more)
    (h : (stepCalls steps).toList ++ rest = (stepCalls others).toList ++ more) :
    steps = others ∧ rest = more := by
  have hkinds : Diverge ".child_key(" ".child_index(" := by decide
  induction steps generalizing others with
  | nil =>
    cases others with
    | nil => exact ⟨rfl, h⟩
    | cons step others => exact absurd h (stepCalls_ne_of_stopsAt step others hrest)
  | cons step steps ih =>
    cases others with
    | nil => exact absurd h.symm (stepCalls_ne_of_stopsAt step steps hmore)
    | cons other others =>
      cases step with
      | key name =>
        cases other with
        | key name' =>
          simp only [stepCalls_key, String.toList_append, List.append_assoc] at h
          obtain ⟨rfl, hback⟩ := quote_delimited (List.append_cancel_left h)
          obtain ⟨rfl, hrest⟩ := ih (List.append_cancel_left hback)
          exact ⟨rfl, hrest⟩
        | index position =>
          simp only [stepCalls_key, stepCalls_index, String.toList_append, List.append_assoc] at h
          exact absurd h (hkinds.append_ne _ _)
      | index position =>
        cases other with
        | key name =>
          simp only [stepCalls_key, stepCalls_index, String.toList_append, List.append_assoc] at h
          exact absurd h.symm (hkinds.append_ne _ _)
        | index position' =>
          simp only [stepCalls_index, String.toList_append, List.append_assoc] at h
          obtain ⟨rfl, hback⟩ := index_delimited (List.append_cancel_left h)
          obtain ⟨rfl, hrest⟩ := ih hback
          exact ⟨rfl, hrest⟩

/-- The expression of a path ends before what is no further call. -/
theorem pathExpression_delimited {path other : FieldPath} {rest more : List Char}
    (hrest : StopsAt (· == '.') rest) (hmore : StopsAt (· == '.') more)
    (h : (pathExpression path).toList ++ rest = (pathExpression other).toList ++ more) :
    path = other ∧ rest = more := by
  have hkinds : Diverge "DotPath::keys([" "DotPath::root()" := by decide
  have hquotes : ∀ names others : List String, ∀ rest more : List Char,
      (", ".intercalate (names.map quote)).toList ++ ']' :: rest =
        (", ".intercalate (others.map quote)).toList ++ ']' :: more →
      names = others ∧ rest = more := by
    intro names others rest more h
    rw [toList_intercalate_quotes, toList_intercalate_quotes] at h
    exact commaList_delimited (by decide) (fun name _ _ ↦ quote_append_ne name _ _ (by decide))
      (fun _ _ _ _ _ _ _ _ ↦ quote_delimited) h
  unfold pathExpression at h
  split at h
  · next hkeys =>
    split at h
    · next hkeys' =>
      simp only [String.toList_append, List.append_assoc] at h
      obtain ⟨hnames, hback⟩ := hquotes _ _ _ _ (List.append_cancel_left h)
      have hsteps : path.steps = other.steps := by
        rw [steps_eq_of_keysOnly hkeys, steps_eq_of_keysOnly hkeys', hnames]
      exact ⟨congrArg FieldPath.mk hsteps, List.tail_eq_of_cons_eq hback⟩
    · simp only [String.toList_append, List.append_assoc] at h
      exact absurd h (hkinds.append_ne _ _)
  · split at h
    · simp only [String.toList_append, List.append_assoc] at h
      exact absurd h.symm (hkinds.append_ne _ _)
    · simp only [String.toList_append, List.append_assoc] at h
      obtain ⟨hsteps, hback⟩ := stepCalls_delimited hrest hmore (List.append_cancel_left h)
      exact ⟨congrArg FieldPath.mk hsteps, hback⟩

/-! ## Data and calls -/

theorem dataExpression_delimited {x y : Json} {rest more : List Char} (hx : x.FiniteNumbers)
    (hy : y.FiniteNumbers)
    (h : (dataExpression x).toList ++ rest = (dataExpression y).toList ++ more) :
    x = y ∧ rest = more := by
  simp only [dataExpression, String.toList_append, List.append_assoc] at h
  obtain ⟨rfl, hback⟩ := dataLiteral_delimited hx hy (stopsAt_cons rfl rest) (stopsAt_cons rfl more)
    (List.append_cancel_left h)
  exact ⟨rfl, (List.cons.inj hback).2⟩

/-- The beginning of a builder call on a line of its own. -/
def callHead (pad name : String) : String := "\n" ++ pad ++ name

/-- What goes on with no builder call, or with one of the given names. -/
def GoesOn (pad : String) (names : List String) (text : List Char) : Prop :=
  StopsAt (· == '\n') text ∨ ∃ name ∈ names, ∃ more, text = (callHead pad name).toList ++ more

section Calls

variable {pad : String} {names : List String}

theorem GoesOn.mono {text : List Char} {further : List String} (h : GoesOn pad names text)
    (hsub : names ⊆ further) : GoesOn pad further text :=
  h.imp_right fun ⟨name, hmem, more, htext⟩ ↦ ⟨name, hsub hmem, more, htext⟩

/-- What goes on otherwise does not begin with a call. -/
theorem GoesOn.ne_call {text : List Char} (h : GoesOn pad names text) {name : String}
    (hname : ∀ other ∈ names, Diverge other name) (more : List Char) :
    text ≠ (callHead pad name).toList ++ more := by
  rcases h with hstop | ⟨other, hmem, back, rfl⟩
  · rw [callHead, String.append_assoc, String.toList_append, List.append_assoc]
    exact hstop.ne_append rfl _
  · simp only [callHead, String.toList_append, List.append_assoc]
    exact fun h ↦ (hname other hmem).append_ne _ _
      (List.append_cancel_left (List.append_cancel_left h))

def tagCall (pad : String) : Option String → String
  | some tag => callHead pad ".discriminator(" ++ quote tag ++ ")"
  | none => ""

theorem tagCall_delimited {tag other : Option String} {rest more : List Char}
    (hrest : GoesOn pad [".prop(", ".child(\n"] rest)
    (hmore : GoesOn pad [".prop(", ".child(\n"] more)
    (h : (tagCall pad tag).toList ++ rest = (tagCall pad other).toList ++ more) :
    tag = other ∧ rest = more := by
  have hkinds : ∀ name ∈ [".prop(", ".child(\n"], Diverge name ".discriminator(" := by decide
  cases tag with
  | none =>
    cases other with
    | none => exact ⟨rfl, h⟩
    | some other =>
      simp only [tagCall, String.toList_append, List.append_assoc] at h
      exact absurd h (hrest.ne_call hkinds _)
  | some tag =>
    cases other with
    | none =>
      simp only [tagCall, String.toList_append, List.append_assoc] at h
      exact absurd h.symm (hmore.ne_call hkinds _)
    | some other =>
      simp only [tagCall, String.toList_append, List.append_assoc] at h
      obtain ⟨rfl, hback⟩ := quote_delimited (List.append_cancel_left h)
      exact ⟨rfl, List.append_cancel_left hback⟩

theorem propCalls_cons (key : String) (value : Json) (rest : Members) :
    propCalls pad ((key, value) :: rest) = callHead pad ".prop(" ++
      (quote key ++ (", " ++ (dataExpression value ++ (")" ++ propCalls pad rest)))) := by
  simp only [propCalls, callHead, String.append_assoc]

theorem goesOn_propCalls (props : Members) {rest : List Char}
    (hrest : GoesOn pad [".child(\n"] rest) :
    GoesOn pad [".prop(", ".child(\n"] ((propCalls pad props).toList ++ rest) := by
  cases props with
  | nil => exact hrest.mono (List.subset_cons_self _ _)
  | cons entry props =>
    rw [propCalls_cons, String.toList_append, List.append_assoc]
    exact .inr ⟨_, List.mem_cons_self, _, rfl⟩

theorem propCalls_delimited {props others : Members} {rest more : List Char}
    (hprops : (object props).FiniteNumbers) (hothers : (object others).FiniteNumbers)
    (hrest : GoesOn pad [".child(\n"] rest) (hmore : GoesOn pad [".child(\n"] more)
    (h : (propCalls pad props).toList ++ rest = (propCalls pad others).toList ++ more) :
    props = others ∧ rest = more := by
  have hkinds : ∀ name ∈ [".child(\n"], Diverge name ".prop(" := by decide
  induction props generalizing others with
  | nil =>
    cases others with
    | nil => exact ⟨rfl, h⟩
    | cons entry others =>
      rw [propCalls_cons, String.toList_append, List.append_assoc] at h
      exact absurd h (hrest.ne_call hkinds _)
  | cons entry props ih =>
    cases others with
    | nil =>
      rw [propCalls_cons, String.toList_append, List.append_assoc] at h
      exact absurd h.symm (hmore.ne_call hkinds _)
    | cons other others =>
      rw [propCalls_cons, propCalls_cons] at h
      simp only [String.toList_append, List.append_assoc] at h
      obtain ⟨hkey, hback⟩ := quote_delimited (List.append_cancel_left h)
      obtain ⟨hvalue, hback⟩ := dataExpression_delimited
        (finiteNumbers_entry hprops entry List.mem_cons_self)
        (finiteNumbers_entry hothers other List.mem_cons_self) (List.append_cancel_left hback)
      obtain ⟨rfl, hend⟩ := ih (finiteNumbers_tail hprops) (finiteNumbers_tail hothers)
        (List.append_cancel_left hback)
      exact ⟨congrArg (· :: props) (Prod.ext hkey hvalue), hend⟩

end Calls

theorem literalHead_some (path : FieldPath) (value : Json) (isItem : Bool) :
    literalHead path (some value) isItem =
      (if isItem then "Literal::item(" else "Literal::field(") ++
        (pathExpression path ++ (", " ++ (dataExpression value ++ ")"))) := by
  unfold literalHead
  cases isItem with
  | true => simp only [if_true, String.append_assoc]
  | false => simp only [Bool.false_eq_true, if_false, String.append_assoc]

/-- The head of a literal with a value determines where and how the value is written. -/
theorem literalHead_delimited {path other : FieldPath} {x y : Json} {isItem isItem' : Bool}
    {rest more : List Char} (hx : x.FiniteNumbers) (hy : y.FiniteNumbers)
    (h : (literalHead path (some x) isItem).toList ++ rest =
      (literalHead other (some y) isItem').toList ++ more) :
    path = other ∧ x = y ∧ isItem = isItem' ∧ rest = more := by
  have hkinds : Diverge "Literal::item(" "Literal::field(" := by decide
  have hstop (back : List Char) : StopsAt (· == '.') (", ".toList ++ back) := stopsAt_cons rfl _
  have hinside {rest more : List Char} (h : (pathExpression path).toList ++ (", ".toList ++
      ((dataExpression x).toList ++ (")".toList ++ rest))) = (pathExpression other).toList ++
        (", ".toList ++ ((dataExpression y).toList ++ (")".toList ++ more)))) :
      path = other ∧ x = y ∧ rest = more := by
    obtain ⟨hpath, hback⟩ := pathExpression_delimited (hstop _) (hstop _) h
    obtain ⟨hvalue, hback⟩ := dataExpression_delimited hx hy (List.append_cancel_left hback)
    exact ⟨hpath, hvalue, List.append_cancel_left hback⟩
  rw [literalHead_some, literalHead_some] at h
  simp only [String.toList_append, List.append_assoc] at h
  cases isItem <;> cases isItem'
  · obtain ⟨hpath, hvalue, hback⟩ := hinside (List.append_cancel_left h)
    exact ⟨hpath, hvalue, rfl, hback⟩
  · exact absurd h.symm (hkinds.append_ne _ _)
  · exact absurd h (hkinds.append_ne _ _)
  · obtain ⟨hpath, hvalue, hback⟩ := hinside (List.append_cancel_left h)
    exact ⟨hpath, hvalue, rfl, hback⟩

/-! ## Trees -/

theorem expression_element (names : TypeNames) (depth : Nat) {type : TypeName}
    (htype : type ≠ TypeName.passthrough) (props : Members) (tag : Option String)
    (children : List Outline) : expression names depth (.element type props tag children) =
      "Element::new(" ++ (names.expression type ++ (")" ++ (tagCall (indent (depth + 1)) tag ++
        (propCalls (indent (depth + 1)) props ++ childCalls names depth children)))) := by
  rw [expression, if_neg htype]
  simp only [String.append_assoc]
  cases tag <;> simp only [tagCall, callHead, String.append_assoc]

theorem expression_literal (names : TypeNames) (depth : Nat) (path : FieldPath)
    (value : Option Json) (isItem : Bool) (children : List Outline) :
    expression names depth (.literal path value isItem children) =
      literalHead path value isItem ++ childCalls names depth children := by
  rw [expression]

/-- One child that has an expression adds one call. -/
theorem childCalls_cons (names : TypeNames) (depth : Nat) {child : Outline} (h : child.Expressible)
    (rest : List Outline) : childCalls names depth (child :: rest) =
      callHead (indent (depth + 1)) ".child(\n" ++ (indent (depth + 1) ++ ("    " ++
        (expression names (depth + 2) child ++ (",\n" ++ (indent (depth + 1) ++ (")" ++
          childCalls names depth rest)))))) := by
  cases child with
  | fragment _ => exact h.elim
  | element type props tag children =>
    rw [childCalls]
    · simp only [callHead, String.append_assoc]
    · exact fun _ h ↦ nomatch h
  | literal path value isItem children =>
    rw [childCalls]
    · simp only [callHead, String.append_assoc]
    · exact fun _ h ↦ nomatch h

theorem goesOn_childCalls (names : TypeNames) (depth : Nat) {children : List Outline}
    (h : Outline.AllExpressible children) {rest : List Char} (hrest : StopsAt (· == '\n') rest) :
    GoesOn (indent (depth + 1)) [".child(\n"]
      ((childCalls names depth children).toList ++ rest) := by
  cases children with
  | nil => exact .inl hrest
  | cons child children =>
    rw [childCalls_cons names depth h.1, String.toList_append, List.append_assoc]
    exact .inr ⟨_, List.mem_cons_self, _, rfl⟩

/-- An element is not written like a literal. -/
theorem expression_element_ne (names : TypeNames) (depth : Nat) {type : TypeName}
    (htype : type ≠ TypeName.passthrough) (props : Members) (tag : Option String)
    (children : List Outline) (path : FieldPath) (value : Json) (isItem : Bool)
    (others : List Outline) (rest more : List Char) :
    (expression names depth (.element type props tag children)).toList ++ rest ≠
      (expression names depth (.literal path (some value) isItem others)).toList ++ more := by
  have hkinds : Diverge "Element::new("
      (if isItem then "Literal::item(" else "Literal::field(") := by
    cases isItem <;> decide
  rw [expression_element names depth htype, expression_literal, literalHead_some]
  simp only [String.toList_append, List.append_assoc]
  exact hkinds.append_ne _ _

mutual

/-- An expression and what follows it determine the outline, unless a further call could follow. -/
theorem expression_delimited {names : TypeNames} (hnames : names.Separate) : ∀ (x : Outline)
    {y : Outline} (depth : Nat) {rest more : List Char}, x.Expressible → y.Expressible →
    StopsAt (· == '\n') rest → StopsAt (· == '\n') more →
    (expression names depth x).toList ++ rest = (expression names depth y).toList ++ more →
    x = y ∧ rest = more
  | .fragment _, _, _, _, _, hx, _, _, _, _ => hx.elim
  | .element type props tag children, y, depth, rest, more, hx, hy, hrest, hmore, h => by
    cases y with
    | fragment _ => exact hy.elim
    | literal path value isItem others =>
      obtain ⟨⟨inner, rfl, -⟩, -⟩ := hy
      exact absurd h (expression_element_ne names depth hx.1 _ _ _ _ _ _ _ _ _)
    | element type' props' tag' others =>
      have hcalls := goesOn_childCalls names depth hx.2.2 hrest
      have hcalls' := goesOn_childCalls names depth hy.2.2 hmore
      rw [expression_element names depth hx.1, expression_element names depth hy.1] at h
      simp only [String.toList_append, List.append_assoc] at h
      obtain ⟨rfl, htype⟩ := hnames.expression_delimited (List.append_cancel_left h)
      obtain ⟨rfl, htag⟩ :=
        tagCall_delimited (goesOn_propCalls _ hcalls) (goesOn_propCalls _ hcalls') htype
      obtain ⟨rfl, hprops⟩ := propCalls_delimited hx.2.1 hy.2.1 hcalls hcalls' htag
      obtain ⟨rfl, hback⟩ :=
        childCalls_delimited hnames children depth hx.2.2 hy.2.2 hrest hmore hprops
      exact ⟨rfl, hback⟩
  | .literal path value isItem children, y, depth, rest, more, hx, hy, hrest, hmore, h => by
    obtain ⟨⟨inner, rfl, hinner⟩, hchildren⟩ := hx
    cases y with
    | fragment _ => exact hy.elim
    | element type props tag others =>
      exact absurd h.symm (expression_element_ne names depth hy.1 _ _ _ _ _ _ _ _ _)
    | literal path' value' isItem' others =>
      obtain ⟨⟨inner', rfl, hinner'⟩, hothers⟩ := hy
      rw [expression_literal, expression_literal] at h
      simp only [String.toList_append, List.append_assoc] at h
      obtain ⟨rfl, rfl, rfl, hhead⟩ := literalHead_delimited hinner hinner' h
      obtain ⟨rfl, hback⟩ :=
        childCalls_delimited hnames children depth hchildren hothers hrest hmore hhead
      exact ⟨rfl, hback⟩

/-- The calls that add children and what follows them determine the children. -/
theorem childCalls_delimited {names : TypeNames} (hnames : names.Separate) : ∀ (xs : List Outline)
    {ys : List Outline} (depth : Nat) {rest more : List Char}, Outline.AllExpressible xs →
    Outline.AllExpressible ys → StopsAt (· == '\n') rest → StopsAt (· == '\n') more →
    (childCalls names depth xs).toList ++ rest = (childCalls names depth ys).toList ++ more →
    xs = ys ∧ rest = more
  | [], [], _, _, _, _, _, _, _, h => ⟨rfl, h⟩
  | [], y :: ys, depth, rest, more, _, hy, hrest, _, h => by
    rw [childCalls_cons names depth hy.1, callHead, String.append_assoc, String.append_assoc,
      String.toList_append, List.append_assoc] at h
    exact absurd h (hrest.ne_append rfl _)
  | x :: xs, [], depth, rest, more, hx, _, _, hmore, h => by
    rw [childCalls_cons names depth hx.1, callHead, String.append_assoc, String.append_assoc,
      String.toList_append, List.append_assoc] at h
    exact absurd h.symm (hmore.ne_append rfl _)
  | x :: xs, y :: ys, depth, rest, more, hx, hy, hrest, hmore, h => by
    have hcomma (back : List Char) : StopsAt (· == '\n') (",\n".toList ++ back) :=
      stopsAt_cons rfl _
    rw [childCalls_cons names depth hx.1, childCalls_cons names depth hy.1] at h
    simp only [String.toList_append, List.append_assoc] at h
    obtain ⟨rfl, hback⟩ := expression_delimited hnames x (depth + 2) hx.1 hy.1 (hcomma _) (hcomma _)
      (List.append_cancel_left (List.append_cancel_left (List.append_cancel_left h)))
    obtain ⟨rfl, hend⟩ := childCalls_delimited hnames xs depth hx.2 hy.2 hrest hmore
      (List.append_cancel_left (List.append_cancel_left (List.append_cancel_left hback)))
    exact ⟨rfl, hend⟩

end

/-- At one depth, and with the types of one collection named, expressible outlines that are written
alike are equal. -/
theorem expression_injective (index : TypeIndex) (types : List TypeName) (depth : Nat)
    {x y : Outline} (hx : x.Expressible) (hy : y.Expressible)
    (h : expression (TypeNames.ofTypes index types) depth x =
      expression (TypeNames.ofTypes index types) depth y) : x = y := by
  have hnil : StopsAt (· == '\n') [] := fun _ hc ↦ nomatch hc
  have htexts := congrArg (fun text : String ↦ text.toList ++ []) h
  exact (expression_delimited (TypeNames.separate_ofTypes index types) x depth hx hy hnil hnil
    htexts).1

/-- A tree whose tag is set afterwards has the text of the tree with the tag, and is that tree. -/
theorem expression_injective_retagged :
    let type : TypeName := ⟨"apps.Pod"⟩
    let index : TypeIndex := TypeIndex.empty.setModule type "apps"
    let props : Members := [("count", .number (.integer 3))]
    let children : List Outline :=
      [.literal ⟨[.key "spec", .index 0]⟩ (some (.number (.real ⟨0x3FE0000000000000⟩))) true []]
    let tree : Outline := .element type props (some "blue") children
    let retagged : Outline := (Outline.element type props none children).withTag (some "blue")
    tree.Expressible ∧ expression (TypeNames.ofTypes index [type]) 0 tree =
        expression (TypeNames.ofTypes index [type]) 0 retagged ∧ tree = retagged := by
  intro type index props children tree retagged
  have hprops : (Json.object props).FiniteNumbers := by
    intro n hn
    rw [scalars_object_cons, scalars_object_nil, add_zero] at hn
    cases Multiset.mem_singleton.mp hn
    trivial
  have hvalue : (Json.number (.real ⟨0x3FE0000000000000⟩)).FiniteNumbers := by
    intro n hn
    cases Multiset.mem_singleton.mp hn
    unfold Number.IsFinite Binary64.IsFinite
    decide
  have htree : tree.Expressible :=
    ⟨by decide, hprops, ⟨⟨_, rfl, hvalue⟩, trivial⟩, trivial⟩
  have hsame : expression (TypeNames.ofTypes index [type]) 0 tree =
      expression (TypeNames.ofTypes index [type]) 0 retagged := rfl
  exact ⟨htree, hsame, expression_injective index [type] 0 htree htree hsame⟩

end Source

end ManifestTree
