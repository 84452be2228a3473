import ManifestTree.Compose
import ManifestTree.Outline.Codec
import ManifestTree.Proofs.Leaves
import ManifestTree.Proofs.PathText

/-!
# Outline data survives being written again

What data says of an outline is put in one predicate for both ways of giving the fields, by name and
in order. Reading decides the predicate, and the data written for an outline that has been read
satisfies it for the same outline. So an outline is read from its own data as itself at every depth:
a value that is missing stays missing and a null stays null. Outlines that no data denotes, as those
with a dot in a key of a path, need not be read back.
-/

namespace ManifestTree.Outline

/-! ## What data says of an outline -/

/-- The field with a name, or at a position where the fields are listed behind the form. -/
def field? (name : String) (position : Nat) : Json → Option Json
  | .object members => Members.get? members name
  | .array items => items[position]?
  | _ => none

def Form.number : Form → Int
  | .fragment => 0
  | .element => 1
  | .literal => 2

/-- A value names a form by its word or, below the top, by its number. -/
def Form.NamedBy (nested : Bool) (form : Form) (tag : Json) : Prop :=
  tag = .string form.word ∨ nested ∧ tag = .number (.integer form.number)

/-- Data names its form, and lists no more fields than the form has. -/
structure HasForm (nested : Bool) (form : Form) (data : Json) : Prop where
  named : ∃ tag, field? "node" 0 data = some tag ∧ form.NamedBy nested tag
  noneBehind : ∀ items, data = .array items → items.length ≤ form.fieldCount + 1

/-- A field gives a value, or is missing and the value is the default. -/
def Gives {α : Type} (wrap : α → Json) (default : α) (field : Option Json) (value : α) : Prop :=
  field = some (wrap value) ∨ field = none ∧ value = default

mutual

/-- Data says of an outline what it is, field by field and at every depth. -/
def Describes (nested : Bool) (data : Json) : Outline → Prop
  | fragment children =>
    HasForm nested .fragment data ∧
      ∃ items, Gives .array [] (field? "children" 1 data) items ∧ DescribeAll items children
  | element type props tag children =>
    HasForm nested .element data ∧ field? "type" 1 data = some (.string type.text) ∧
      Gives .object [] (field? "props" 2 data) props ∧
      (field? "discriminator" 3 data = tag.map .string ∨
        field? "discriminator" 3 data = some .null ∧ tag = none) ∧
      ∃ items, Gives .array [] (field? "children" 4 data) items ∧ DescribeAll items children
  | literal path value isItem children =>
    HasForm nested .literal data ∧
      (∃ text, field? "path" 1 data = some (.string text) ∧ FieldPath.ofText text = .ok path) ∧
      field? "value" 2 data = value ∧ Gives .bool false (field? "arrayItem" 3 data) isItem ∧
      ∃ items, Gives .array [] (field? "children" 4 data) items ∧ DescribeAll items children

/-- Data says of several outlines what they are, one by one. -/
def DescribeAll : List Json → List Outline → Prop
  | [], [] => True
  | data :: rest, outline :: outlines => Describes true data outline ∧ DescribeAll rest outlines
  | _, _ => False

end

/-! ## Reading the fields -/

theorem Form.ofWord?_eq_some_iff (word : String) (form : Form) :
    ofWord? word = some form ↔ word = form.word := by
  unfold ofWord?
  split_ifs <;> cases form <;> simp_all [Form.word]

theorem Form.ofJson?_eq_some_iff (nested : Bool) (tag : Json) (form : Form) :
    ofJson? nested tag = some form ↔ form.NamedBy nested tag := by
  unfold ofJson? NamedBy
  split
  · simp [ofWord?_eq_some_iff]
  · cases form <;> simp [Form.number]
  · cases form <;> simp [Form.number]
  · cases form <;> simp [Form.number]
  · next tag hword hzero hone htwo =>
    constructor
    · exact fun h ↦ nomatch h
    · rintro (rfl | ⟨-, rfl⟩)
      · exact absurd rfl (hword _)
      · cases form
        · exact absurd rfl hzero
        · exact absurd rfl hone
        · exact absurd rfl htwo

theorem text?_eq_some_iff (field : Option Json) (text : String) :
    text? field = some text ↔ field = some (.string text) := by
  unfold text?
  split <;> simp_all

theorem path?_eq_some_iff (field : Option Json) (path : FieldPath) :
    path? field = some path ↔
      ∃ text, field = some (.string text) ∧ FieldPath.ofText text = .ok path := by
  have hparse (text : String) :
      (FieldPath.parse text).toOption = some path ↔ FieldPath.ofText text = .ok path := by
    rw [FieldPath.ofText_eq_ok_iff_parse]
    cases FieldPath.parse text <;> simp [Except.toOption]
  simp only [path?, Option.bind_eq_bind, Option.bind_eq_some_iff, text?_eq_some_iff, hparse]

theorem flag?_eq_some_iff (field : Option Json) (flag : Bool) :
    flag? field = some flag ↔ Gives .bool false field flag := by
  rcases field with - | value
  · simp [flag?, Gives, eq_comm]
  · cases value <;> simp [flag?, Gives]

theorem members?_eq_some_iff (field : Option Json) (members : Members) :
    members? field = some members ↔ Gives .object [] field members := by
  rcases field with - | value
  · simp [members?, Gives, eq_comm]
  · cases value <;> simp [members?, Gives]

theorem optionalText?_eq_some_iff (field : Option Json) (tag : Option String) :
    optionalText? field = some tag ↔
      field = tag.map .string ∨ field = some .null ∧ tag = none := by
  unfold optionalText?
  split <;> cases tag <;> simp_all [eq_comm]

/-- The children that a field holds, none where it is missing. -/
def childrenIn? : Option Json → Option (List Outline)
  | none => some []
  | some value => decodeList? value

theorem childrenOfMembers?_eq (members : Members) :
    childrenOfMembers? members = childrenIn? (members.get? "children") := by
  induction members with
  | nil => rfl
  | cons entry rest ih =>
    rcases entry with ⟨key, value⟩
    rw [childrenOfMembers?, Members.get?, Association.get?_cons]
    split
    · rfl
    · exact ih

theorem childrenAt?_eq (position : Nat) (items : List Json) :
    childrenAt? position items = childrenIn? items[position]? := by
  induction items generalizing position with
  | nil => cases position <;> rfl
  | cons item rest ih =>
    cases position with
    | zero => rfl
    | succ position => exact ih position

theorem childrenIn?_eq_some_iff (field : Option Json) (children : List Outline) :
    childrenIn? field = some children ↔
      ∃ items, Gives .array [] field items ∧ decodeItems? items = some children := by
  rcases field with - | value
  · simp [childrenIn?, Gives, decodeItems?]
  · cases value <;> simp [childrenIn?, Gives, decodeList?]

/-! ## Reading decides what data says -/

/-- The outline of a form that the fields of data give. -/
def ofForm? (data : Json) : Form → Option Outline
  | .fragment => (childrenIn? (field? "children" 1 data)).map fragment
  | .element => elementOf? (field? "type" 1 data) (field? "props" 2 data)
      (field? "discriminator" 3 data) (childrenIn? (field? "children" 4 data))
  | .literal => literalOf? (field? "path" 1 data) (field? "value" 2 data)
      (field? "arrayItem" 3 data) (childrenIn? (field? "children" 4 data))

theorem ofFields?_eq (form : Form) (members : Members) :
    ofFields? form members (childrenOfMembers? members) = ofForm? (.object members) form := by
  rw [childrenOfMembers?_eq]
  cases form <;> rfl

/-- Fields are read alike whether they are named or listed. -/
theorem decode?_eq_some_iff_ofForm? (nested : Bool) (data : Json) (outline : Outline) :
    decode? nested data = some outline ↔
      ∃ form, HasForm nested form data ∧ ofForm? data form = some outline := by
  cases data with
  | object members =>
    have hform (form : Form) : HasForm nested form (.object members) ↔
        ∃ tag, Members.get? members "node" = some tag ∧ form.NamedBy nested tag :=
      ⟨fun h ↦ h.named, fun h ↦ ⟨h, fun _ heq ↦ nomatch heq⟩⟩
    simp only [decode?, Option.bind_eq_bind, Option.bind_eq_some_iff, hform,
      Form.ofJson?_eq_some_iff, ofFields?_eq]
    constructor
    · rintro ⟨tag, htag, form, hnamed, hread⟩
      exact ⟨form, ⟨tag, htag, hnamed⟩, hread⟩
    · rintro ⟨form, ⟨tag, htag, hnamed⟩, hread⟩
      exact ⟨tag, htag, form, hnamed, hread⟩
  | array items =>
    cases items with
    | nil =>
      simp only [decode?, reduceCtorEq, false_iff]
      rintro ⟨form, ⟨⟨tag, htag, -⟩, -⟩, -⟩
      cases htag
    | cons tag items =>
      have hform (form : Form) : HasForm nested form (.array (tag :: items)) ↔
          form.NamedBy nested tag ∧ items.length ≤ form.fieldCount := by
        constructor
        · rintro ⟨⟨_, ⟨⟩, hnamed⟩, hbehind⟩
          exact ⟨hnamed, Nat.le_of_succ_le_succ (hbehind _ rfl)⟩
        · rintro ⟨hnamed, hlength⟩
          refine ⟨⟨tag, rfl, hnamed⟩, ?_⟩
          rintro _ ⟨⟩
          exact Nat.succ_le_succ hlength
      simp only [decode?, Option.bind_eq_bind, Option.bind_eq_some_iff, hform,
        Form.ofJson?_eq_some_iff, childrenAt?_eq]
      refine exists_congr fun form ↦ ?_
      rw [and_assoc]
      refine and_congr_right fun _ ↦ ?_
      by_cases hlength : items.length ≤ form.fieldCount
      · rw [if_neg (not_lt.mpr hlength), and_iff_right hlength]
        cases form <;> rfl
      · rw [if_pos (not_le.mp hlength)]
        exact ⟨fun h ↦ (nomatch h), fun h ↦ absurd h.1 hlength⟩
  | _ =>
    simp only [decode?, reduceCtorEq, false_iff]
    rintro ⟨form, ⟨⟨tag, htag, -⟩, -⟩, -⟩
    cases htag

theorem elementOf?_eq_some_iff {type props tag : Option Json} {children : Option (List Outline)}
    {name : TypeName} {members : Members} {word : Option String} {below : List Outline} :
    elementOf? type props tag children = some (element name members word below) ↔
      type = some (.string name.text) ∧ Gives .object [] props members ∧
        (tag = word.map .string ∨ tag = some .null ∧ word = none) ∧ children = some below := by
  simp only [elementOf?, Option.bind_eq_bind, Option.bind_eq_some_iff, text?_eq_some_iff,
    members?_eq_some_iff, optionalText?_eq_some_iff, Option.pure_def, Option.some.injEq]
  constructor
  · rintro ⟨_, hname, _, hmembers, _, hword, _, hbelow, ⟨⟩⟩
    exact ⟨hname, hmembers, hword, hbelow⟩
  · rintro ⟨hname, hmembers, hword, hbelow⟩
    exact ⟨name.text, hname, members, hmembers, word, hword, below, hbelow, rfl⟩

theorem literalOf?_eq_some_iff {path value isItem : Option Json} {children : Option (List Outline)}
    {place : FieldPath} {held : Option Json} {flag : Bool} {below : List Outline} :
    literalOf? path value isItem children = some (literal place held flag below) ↔
      (∃ text, path = some (.string text) ∧ FieldPath.ofText text = .ok place) ∧
        value = held ∧ Gives .bool false isItem flag ∧ children = some below := by
  simp only [literalOf?, Option.bind_eq_bind, Option.bind_eq_some_iff, path?_eq_some_iff,
    flag?_eq_some_iff, Option.pure_def, Option.some.injEq]
  constructor
  · rintro ⟨_, hplace, _, hflag, _, hbelow, ⟨⟩⟩
    exact ⟨hplace, rfl, hflag, hbelow⟩
  · rintro ⟨hplace, rfl, hflag, hbelow⟩
    exact ⟨place, hplace, flag, hflag, below, hbelow, rfl⟩

def form : Outline → Form
  | fragment _ => .fragment
  | element _ _ _ _ => .element
  | literal _ _ _ _ => .literal

theorem form_of_ofForm? {data : Json} {form : Form} {outline : Outline}
    (h : ofForm? data form = some outline) : outline.form = form := by
  cases form with
  | fragment =>
    obtain ⟨_, -, rfl⟩ := Option.map_eq_some_iff.mp h
    rfl
  | element =>
    simp only [ofForm?, elementOf?, Option.bind_eq_bind, Option.bind_eq_some_iff] at h
    obtain ⟨_, -, _, -, _, -, _, -, ⟨⟩⟩ := h
    rfl
  | literal =>
    simp only [ofForm?, literalOf?, Option.bind_eq_bind, Option.bind_eq_some_iff] at h
    obtain ⟨_, -, _, -, _, -, ⟨⟩⟩ := h
    rfl

theorem decode?_eq_some_iff_form (nested : Bool) (data : Json) (outline : Outline) :
    decode? nested data = some outline ↔
      HasForm nested outline.form data ∧ ofForm? data outline.form = some outline := by
  rw [decode?_eq_some_iff_ofForm?]
  constructor
  · rintro ⟨form, hform, hread⟩
    cases form_of_ofForm? hread
    exact ⟨hform, hread⟩
  · exact fun h ↦ ⟨_, h⟩

mutual

/-- Reading finds an outline exactly when the data says of it what it is. The induction is on the
outline, whose form settles which fields are read, from an object and from a list alike. -/
theorem decode?_eq_some_iff : ∀ (outline : Outline) (nested : Bool) (data : Json),
    decode? nested data = some outline ↔ Describes nested data outline
  | fragment children, nested, data => by
    rw [decode?_eq_some_iff_form, Describes]
    refine and_congr_right fun _ ↦ ?_
    simp only [form, ofForm?, Option.map_eq_some_iff, childrenIn?_eq_some_iff, fragment.injEq,
      exists_eq_right, decodeItems?_eq_some_iff children]
  | element type props tag children, nested, data => by
    rw [decode?_eq_some_iff_form, Describes]
    refine and_congr_right fun _ ↦ ?_
    simp only [form, ofForm?, elementOf?_eq_some_iff, childrenIn?_eq_some_iff,
      decodeItems?_eq_some_iff children]
  | literal path value isItem children, nested, data => by
    rw [decode?_eq_some_iff_form, Describes]
    refine and_congr_right fun _ ↦ ?_
    simp only [form, ofForm?, literalOf?_eq_some_iff, childrenIn?_eq_some_iff,
      decodeItems?_eq_some_iff children]

theorem decodeItems?_eq_some_iff : ∀ (outlines : List Outline) (items : List Json),
    decodeItems? items = some outlines ↔ DescribeAll items outlines
  | [], items => by
    cases items <;> simp [decodeItems?, DescribeAll, Option.bind_eq_some_iff]
  | outline :: outlines, items => by
    cases items with
    | nil => simp [decodeItems?, DescribeAll]
    | cons item rest =>
      have hfirst := decode?_eq_some_iff outline true item
      have hrest := decodeItems?_eq_some_iff outlines rest
      rw [DescribeAll, ← hfirst, ← hrest]
      simp only [decodeItems?, Option.bind_eq_bind, Option.bind_eq_some_iff, Option.pure_def,
        Option.some.injEq, List.cons.injEq]
      constructor
      · rintro ⟨_, hitem, _, hitems, rfl, rfl⟩
        exact ⟨hitem, hitems⟩
      · rintro ⟨hitem, hitems⟩
        exact ⟨outline, hitem, outlines, hitems, rfl, rfl⟩

end

/-! ## What is written -/

theorem hasForm_toJson (nested : Bool) (outline : Outline) :
    HasForm nested outline.form outline.toJson := by
  cases outline <;> rw [toJson] <;> exact ⟨⟨_, rfl, .inl rfl⟩, fun _ heq ↦ (nomatch heq)⟩

mutual

/-- The data of an outline that has been read says of it what it is. -/
theorem describes_toJson : ∀ (outline : Outline) {nested : Bool} {data : Json},
    Describes nested data outline → ∀ top, Describes top outline.toJson outline
  | fragment children, _, _, h, top => by
    obtain ⟨-, items, -, hitems⟩ := h
    have hbelow := describeAll_toJsons children hitems
    refine ⟨hasForm_toJson top (fragment children), toJsons children, .inl ?_, hbelow⟩
    rw [toJson]
    rfl
  | element type props tag children, _, _, h, top => by
    obtain ⟨-, -, -, -, items, -, hitems⟩ := h
    have hform := hasForm_toJson top (element type props tag children)
    have hbelow := describeAll_toJsons children hitems
    refine ⟨hform, ?_, .inl ?_, .inl ?_, toJsons children, .inl ?_, hbelow⟩ <;>
      rw [toJson] <;> cases tag <;> rfl
  | literal path value isItem children, _, _, h, top => by
    obtain ⟨-, ⟨text, -, htext⟩, -, -, items, -, hitems⟩ := h
    have hpath : FieldPath.ofText path.text = .ok path :=
      (FieldPath.ofText_text_iff path).mpr ((FieldPath.exists_ofText_iff path).mp ⟨text, htext⟩)
    have hform := hasForm_toJson top (literal path value isItem children)
    have hbelow := describeAll_toJsons children hitems
    refine ⟨hform, ⟨path.text, ?_, hpath⟩, ?_, .inl ?_, toJsons children, .inl ?_, hbelow⟩ <;>
      rw [toJson] <;> cases value <;> rfl

theorem describeAll_toJsons : ∀ (outlines : List Outline) {items : List Json},
    DescribeAll items outlines → DescribeAll (toJsons outlines) outlines
  | [], _, _ => trivial
  | _ :: _, [], h => h.elim
  | outline :: outlines, _ :: _, h =>
    ⟨describes_toJson outline h.1 true, describeAll_toJsons outlines h.2⟩

end

theorem field?_wellFormed {data value : Json} (h : data.WellFormed) {name : String}
    {position : Nat} (hfield : field? name position data = some value) : value.WellFormed := by
  cases data with
  | object members => exact h.member hfield
  | array items => exact h.item hfield
  | _ => cases hfield

theorem items_wellFormed {data : Json} (h : data.WellFormed) {position : Nat} {items : List Json}
    (hfield : Gives .array [] (field? "children" position data) items) :
    (Json.array items).WellFormed := by
  rcases hfield with hfield | ⟨-, rfl⟩
  · exact field?_wellFormed h hfield
  · simp [Json.WellFormed, Json.ItemsWellFormed]

mutual

/-- No key is written twice when the data that was read repeats none. -/
theorem wellFormed_toJson : ∀ (outline : Outline) {nested : Bool} {data : Json},
    Describes nested data outline → data.WellFormed → outline.toJson.WellFormed
  | fragment children, _, _, h, hdata => by
    obtain ⟨-, items, hfield, hitems⟩ := h
    have hbelow := itemsWellFormed_toJsons children hitems (items_wellFormed hdata hfield)
    rw [toJson]
    exact ⟨(by decide : ["node", "children"].Nodup), trivial, hbelow, trivial⟩
  | element type props tag children, _, _, h, hdata => by
    obtain ⟨-, -, hprops, -, items, hfield, hitems⟩ := h
    have hbelow := itemsWellFormed_toJsons children hitems (items_wellFormed hdata hfield)
    have hmembers : (Json.object props).WellFormed := by
      rcases hprops with hprops | ⟨-, rfl⟩
      · exact field?_wellFormed hdata hprops
      · simp [Json.WellFormed, Json.MembersWellFormed]
    rw [toJson]
    cases tag with
    | none =>
      have hkeys : ["node", "type", "props", "children"].Nodup := by decide
      exact ⟨hkeys, trivial, trivial, hmembers, hbelow, trivial⟩
    | some word =>
      have hkeys : ["node", "type", "props", "discriminator", "children"].Nodup := by decide
      exact ⟨hkeys, trivial, trivial, hmembers, trivial, hbelow, trivial⟩
  | literal path value isItem children, _, _, h, hdata => by
    obtain ⟨-, -, hvalue, -, items, hfield, hitems⟩ := h
    have hbelow := itemsWellFormed_toJsons children hitems (items_wellFormed hdata hfield)
    rw [toJson]
    cases value with
    | none =>
      have hkeys : ["node", "path", "arrayItem", "children"].Nodup := by decide
      exact ⟨hkeys, trivial, trivial, trivial, hbelow, trivial⟩
    | some held =>
      have hkeys : ["node", "path", "value", "arrayItem", "children"].Nodup := by decide
      exact ⟨hkeys, trivial, trivial, field?_wellFormed hdata hvalue, trivial, hbelow, trivial⟩

theorem itemsWellFormed_toJsons : ∀ (outlines : List Outline) {items : List Json},
    DescribeAll items outlines → (Json.array items).WellFormed →
      (Json.array (toJsons outlines)).WellFormed
  | [], _, _, _ => trivial
  | _ :: _, [], h, _ => h.elim
  | outline :: outlines, _ :: _, h, hitems =>
    ⟨wellFormed_toJson outline h.1 hitems.1, itemsWellFormed_toJsons outlines h.2 hitems.2⟩

end

/-! ## Reading what is written -/

/-- An outline that has been read is read from its own data as itself. Both its data and the data
that was read say of it, and of no other outline, what it is; its data repeats no key, and whatever
is read from it composes to the same documents or with the same failure. -/
theorem toJson_reads_back {data : Json} {outline : Outline} (h : ofJson? data = some outline) :
    ofJson? outline.toJson = some outline ∧
      (∀ other, Describes false data other ↔ other = outline) ∧
      (∀ other, Describes false outline.toJson other ↔ other = outline) ∧
      (data.WellFormed → outline.toJson.WellFormed) ∧
      ∀ again, ofJson? outline.toJson = some again → ∀ context,
        Compose.compose context again.toNode = Compose.compose context outline.toNode := by
  have hdata : Describes false data outline := (decode?_eq_some_iff outline false data).mp h
  have hagain : ofJson? outline.toJson = some outline :=
    (decode?_eq_some_iff outline false _).mpr (describes_toJson outline hdata false)
  have hunique {read : Json} (hread : ofJson? read = some outline) (other : Outline) :
      Describes false read other ↔ other = outline := by
    rw [← decode?_eq_some_iff, ← ofJson?, hread, Option.some.injEq, eq_comm]
  refine ⟨hagain, hunique h, hunique hagain, wellFormed_toJson outline hdata, ?_⟩
  intro again hread context
  rw [hagain, Option.some.injEq] at hread
  rw [hread]

/-- A pod with a null at a path, a path that is only opened, and a container given by a number and a
list of fields. -/
theorem toJson_reads_back_pod :
    let container : Json := .array [.number (.integer 1), .string "Container",
      .object [("b", .number (.integer 2)), ("a", .number (.real ⟨0⟩))], .null]
    let data : Json := .object [("type", .string "Pod"), ("node", .string "element"),
      ("children", .array [
        .object [("node", .string "literal"), ("path", .string "nodeName"), ("value", .null)],
        .object [("node", .string "literal"), ("path", .string "ports[+07].name")], container])]
    let outline : Outline := .element ⟨"Pod"⟩ [] none [
      .literal ⟨[.key "nodeName"]⟩ (some .null) false [],
      .literal ⟨[.key "ports", .index 7, .key "name"]⟩ none false [],
      .element ⟨"Container"⟩ [("b", .number (.integer 2)), ("a", .number (.real ⟨0⟩))] none []]
    ofJson? data = some outline ∧ ofJson? outline.toJson = some outline := by
  intro container data outline
  have hdata : ofJson? data = some outline := rfl
  exact ⟨hdata, (toJson_reads_back hdata).1⟩

end ManifestTree.Outline
