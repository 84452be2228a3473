import ManifestTree.Proofs.GeneratedSource
import ManifestTree.Proofs.ReferencedTypes

/-!
# Imported constants stand for one type each

The body of generated source is fixed text with the expressions of types in between, one for each
element. A constant that is given away to a type is imported from the module recorded for the type,
and nothing else is imported; every other type is written with its full name. As different types
have different expressions, an imported constant stands for one type and comes from one module. The
type reserved for elements that carry a document as it is must not be met on the way. That a
constant is a name of the target language is not shown.
-/

namespace ManifestTree.Source

/-! ## Imports -/

namespace TypeNames

def Imports (names : TypeNames) (module constant : String) : Prop :=
  ∃ constants, (module, constants) ∈ names.imports ∧ constant ∈ constants

theorem mem_insertText (text other : String) (texts : List String) :
    other ∈ insertText text texts ↔ other = text ∨ other ∈ texts := by
  induction texts with
  | nil => simp [insertText]
  | cons first rest ih =>
    rw [insertText]
    split
    · next heq => simp [heq]
    · split
      · simp
      · rw [List.mem_cons, List.mem_cons, ih]
        exact or_left_comm

/-- The constants of a module, one more among them if it is the module of the new constant. -/
theorem exists_mem_insertImport (module constant other text : String)
    (imports : List (String × List String)) :
    (∃ constants, (other, constants) ∈ insertImport module constant imports ∧ text ∈ constants) ↔
      other = module ∧ text = constant ∨
        ∃ constants, (other, constants) ∈ imports ∧ text ∈ constants := by
  have hcons (entry : String × List String) (rest : List (String × List String)) :
      (∃ constants, (other, constants) ∈ entry :: rest ∧ text ∈ constants) ↔
        other = entry.1 ∧ text ∈ entry.2 ∨
          ∃ constants, (other, constants) ∈ rest ∧ text ∈ constants := by
    rcases entry with ⟨name, constants⟩
    simp only [List.mem_cons, Prod.mk.injEq, or_and_right, exists_or, and_assoc]
    simp
  induction imports with
  | nil =>
    rw [insertImport, hcons]
    simp
  | cons entry rest ih =>
    rw [insertImport]
    split
    · next heq =>
      rw [hcons, hcons, mem_insertText, heq]
      tauto
    · split
      · rw [hcons, hcons]
        simp
      · refine (hcons _ _).trans ((or_congr_right ih).trans ?_)
        rw [hcons]
        exact or_left_comm

/-- What is written for the types named so far, and what is imported for them. -/
structure Records (index : TypeIndex) (done : List TypeName) (names : TypeNames) : Prop where
  keys : names.expressions.map Prod.fst = done
  /-- It is the full name, or the constant if a module is recorded. -/
  written : ∀ entry ∈ names.expressions, entry.2 = quote entry.1.text ∨
    entry.2 = constantOf entry.1 ∧ ∃ module, index.moduleOf entry.1 = some module
  /-- The constants that stand for types are imported from the modules of the types. -/
  imported : ∀ module constant, names.Imports module constant ↔
    ∃ type, (type, constant) ∈ names.expressions ∧ constant = constantOf type ∧
      index.moduleOf type = some module

theorem quote_ne_constantOf (text : String) (type : TypeName) : quote text ≠ constantOf type := by
  intro heq
  have hmem : '"' ∈ (quote text).toList := by simp [toList_quote]
  rw [heq] at hmem
  exact (Text.staysInside_shoutyCase type.short _ hmem).1 rfl

variable {index : TypeIndex} {done : List TypeName} {names : TypeNames}

theorem Records.addQuoted (h : Records index done names) (type : TypeName) :
    Records index (done ++ [type])
      { names with expressions := names.expressions ++ [(type, quote type.text)] } where
  keys := by
    rw [List.map_append, h.keys]
    rfl
  written := List.forall_mem_append.mpr ⟨h.written, List.forall_mem_singleton.mpr (.inl rfl)⟩
  imported := by
    intro module constant
    refine (h.imported module constant).trans (exists_congr fun other ↦ ?_)
    rw [List.mem_append, List.mem_singleton, Prod.mk.injEq]
    constructor
    · exact fun ⟨hmem, hrest⟩ ↦ ⟨.inl hmem, hrest⟩
    · rintro ⟨hmem | ⟨rfl, rfl⟩, hconstant, hmodule⟩
      · exact ⟨hmem, hconstant, hmodule⟩
      · exact absurd hconstant (quote_ne_constantOf _ _)

theorem Records.addConstant (h : Records index done names) {type : TypeName} {module : String}
    (hmodule : index.moduleOf type = some module) (constants : List String) :
    Records index (done ++ [type]) ⟨names.expressions ++ [(type, constantOf type)],
      insertImport module (constantOf type) names.imports, constants⟩ where
  keys := by
    rw [List.map_append, h.keys]
    rfl
  written := List.forall_mem_append.mpr
    ⟨h.written, List.forall_mem_singleton.mpr (.inr ⟨rfl, module, hmodule⟩)⟩
  imported := by
    intro other constant
    refine (exists_mem_insertImport module (constantOf type) other constant names.imports).trans ?_
    constructor
    · rintro (⟨rfl, rfl⟩ | hold)
      · exact ⟨type, List.mem_append_right _ (List.mem_singleton_self _), rfl, hmodule⟩
      · obtain ⟨earlier, hmem, hrest⟩ := (h.imported other constant).mp hold
        exact ⟨earlier, List.mem_append_left _ hmem, hrest⟩
    · rintro ⟨found, hmem, hconstant, hfound⟩
      rcases List.mem_append.mp hmem with hmem | hmem
      · exact .inr ((h.imported other constant).mpr ⟨found, hmem, hconstant, hfound⟩)
      · cases List.mem_singleton.mp hmem
        rw [hmodule, Option.some.injEq] at hfound
        exact .inl ⟨hfound.symm, rfl⟩

theorem Records.add (h : Records index done names) (type : TypeName) :
    Records index (done ++ [type]) (TypeNames.add index names type) := by
  rw [TypeNames.add]
  split
  · next module hmodule =>
    split
    · exact h.addQuoted type
    · exact h.addConstant hmodule _
  · exact h.addQuoted type

theorem records_empty (index : TypeIndex) : Records index [] TypeNames.empty where
  keys := rfl
  written := fun _ hmem ↦ absurd hmem List.not_mem_nil
  imported := by
    intro module constant
    constructor
    · rintro ⟨_, hmem, -⟩
      exact absurd hmem List.not_mem_nil
    · rintro ⟨_, hmem, -⟩
      exact absurd hmem List.not_mem_nil

theorem records_ofTypes (index : TypeIndex) (types : List TypeName) :
    Records index (TypeName.sorted types) (ofTypes index types) := by
  have hfold (rest : List TypeName) {done : List TypeName} {names : TypeNames}
      (h : Records index done names) :
      Records index (done ++ rest) (rest.foldl (TypeNames.add index) names) := by
    induction rest generalizing done names with
    | nil => rwa [List.append_nil]
    | cons type rest ih =>
      have hnext := ih (h.add type)
      rwa [List.append_assoc] at hnext
  exact hfold (TypeName.sorted types) (records_empty index)

/-- The first entry of a type gives its expression. -/
theorem Records.expression_eq (h : Records index done names) (hdone : done.Nodup)
    {type : TypeName} {text : String} (hmem : (type, text) ∈ names.expressions) :
    names.expression type = text := by
  have hkeys : (names.expressions.map Prod.fst).Nodup := h.keys ▸ hdone
  rw [expression, Association.get?_eq_some_of_mem hkeys hmem]
  rfl

theorem Records.mem_expressions (h : Records index done names) (hdone : done.Nodup)
    {type : TypeName} (hmem : type ∈ done) :
    (type, names.expression type) ∈ names.expressions := by
  rw [← h.keys] at hmem
  obtain ⟨⟨_, text⟩, hentry, rfl⟩ := List.mem_map.mp hmem
  rwa [h.expression_eq hdone hentry]

/-- Different types have different expressions, announced or not. -/
theorem expression_ofTypes_injective (index : TypeIndex) (types : List TypeName) :
    Function.Injective (ofTypes index types).expression := by
  intro type other heq
  have hclosed := congrArg (fun text : String ↦ text.toList ++ ')' :: []) heq
  exact ((separate_ofTypes index types).expression_delimited hclosed).1

theorem not_mem_constantOf (type : TypeName) : '"' ∉ (constantOf type).toList :=
  fun hmem ↦ (Text.staysInside_shoutyCase type.short _ hmem).1 rfl

/-- A constant is imported from a module exactly when it is the expression of a type whose module
it is. -/
theorem imports_ofTypes_iff (index : TypeIndex) (types : List TypeName) (module constant : String) :
    (ofTypes index types).Imports module constant ↔ '"' ∉ constant.toList ∧
      ∃ type ∈ types, (ofTypes index types).expression type = constant ∧
        index.moduleOf type = some module := by
  have hrecords := records_ofTypes index types
  obtain ⟨hascending, hsorted⟩ := TypeName.sorted_spec types
  rw [hrecords.imported]
  constructor
  · rintro ⟨type, hmem, rfl, hmodule⟩
    have hdone : type ∈ TypeName.sorted types := hrecords.keys ▸ List.mem_map_of_mem hmem
    exact ⟨not_mem_constantOf type, type, (hsorted type).mp hdone,
      hrecords.expression_eq hascending.nodup hmem, hmodule⟩
  · rintro ⟨hquote, type, htype, rfl, hmodule⟩
    have hmem := hrecords.mem_expressions hascending.nodup ((hsorted type).mpr htype)
    refine ⟨type, hmem, ?_, hmodule⟩
    rcases hrecords.written _ hmem with hfull | hconstant
    · dsimp only at hfull
      rw [hfull, toList_quote] at hquote
      exact absurd List.mem_cons_self hquote
    · exact hconstant.1

theorem quoted_or_imported (index : TypeIndex) {types : List TypeName} {type : TypeName}
    (h : type ∈ types) : (∃ module, (ofTypes index types).Imports module
      ((ofTypes index types).expression type)) ∨
        (ofTypes index types).expression type = quote type.text := by
  have hrecords := records_ofTypes index types
  obtain ⟨hascending, hsorted⟩ := TypeName.sorted_spec types
  have hmem := hrecords.mem_expressions hascending.nodup ((hsorted type).mpr h)
  rcases hrecords.written _ hmem with hfull | ⟨hconstant, module, hmodule⟩
  · exact .inr hfull
  · exact .inl ⟨module, (hrecords.imported module _).mpr ⟨type, hmem, hconstant, hmodule⟩⟩

end TypeNames

/-! ## The body as text with types in between -/

inductive Piece where
  | fixed (text : String)
  | type (name : TypeName)

namespace Piece

def write (names : TypeNames) : Piece → String
  | fixed text => text
  | type name => names.expression name

def type? : Piece → Option TypeName
  | fixed _ => none
  | type name => some name

theorem filterMap_type?_fixed (text : String) (rest : List Piece) :
    (fixed text :: rest).filterMap type? = rest.filterMap type? := rfl

theorem mem_filterMap_type? {parts : List Piece} {name : TypeName} :
    name ∈ parts.filterMap type? ↔ type name ∈ parts := by
  rw [List.mem_filterMap]
  constructor
  · rintro ⟨_ | other, hmem, hname⟩
    · cases hname
    · cases hname
      exact hmem
  · exact fun hmem ↦ ⟨type name, hmem, rfl⟩

end Piece

mutual

/-- The pieces of the expression of an outline at a depth. -/
def pieces (depth : Nat) : Outline → List Piece
  | .fragment _ => []
  | .element type props tag children =>
    if type = TypeName.passthrough then
      [.fixed ("Element::passthrough(" ++ dataExpression (.object props) ++ ")")]
    else
      .fixed "Element::new(" :: .type type :: .fixed (")" ++ tagCall (indent (depth + 1)) tag
        ++ propCalls (indent (depth + 1)) props) :: childPieces depth children
  | .literal path value isItem children =>
    .fixed (literalHead path value isItem) :: childPieces depth children

def childPieces (depth : Nat) : List Outline → List Piece
  | [] => []
  | .fragment _ :: rest => childPieces depth rest
  | child :: rest =>
    .fixed (callHead (indent (depth + 1)) ".child(\n" ++ indent (depth + 1) ++ "    ") ::
      (pieces (depth + 2) child ++ .fixed (",\n" ++ indent (depth + 1) ++ ")") ::
        childPieces depth rest)

end

def bodyPieces (roots : List Outline) : List Piece :=
  roots.flatMap fun root ↦ .fixed (indent 2) :: (pieces 2 root ++ [.fixed ",\n"])

def writeAll (names : TypeNames) (parts : List Piece) : String :=
  String.join (parts.map (Piece.write names))

section Writing

variable (names : TypeNames)

theorem writeAll_cons (part : Piece) (rest : List Piece) :
    writeAll names (part :: rest) = part.write names ++ writeAll names rest := by
  rw [writeAll, List.map_cons, String.join_cons, ← writeAll]

theorem writeAll_append (front back : List Piece) :
    writeAll names (front ++ back) = writeAll names front ++ writeAll names back := by
  rw [writeAll, List.map_append, String.join_append, ← writeAll, ← writeAll]

mutual

theorem writeAll_pieces : ∀ (x : Outline) (depth : Nat),
    writeAll names (pieces depth x) = expression names depth x
  | .fragment _, depth => by
    rw [pieces, expression]
    rfl
  | .element type props tag children, depth => by
    by_cases htype : type = TypeName.passthrough
    · rw [pieces, if_pos htype, expression, if_pos htype]
      rfl
    · rw [pieces, if_neg htype, expression_element names depth htype]
      simp only [writeAll_cons, Piece.write, writeAll_childPieces children depth,
        String.append_assoc]
  | .literal path value isItem children, depth => by
    rw [pieces, expression_literal, writeAll_cons, writeAll_childPieces children depth, Piece.write]

theorem writeAll_childPieces : ∀ (xs : List Outline) (depth : Nat),
    writeAll names (childPieces depth xs) = childCalls names depth xs
  | [], depth => by
    rw [childPieces, childCalls]
    rfl
  | .fragment _ :: rest, depth => by
    rw [childPieces, childCalls, writeAll_childPieces rest depth]
  | .element type props tag children :: rest, depth => by
    rw [childPieces, childCalls]
    · simp only [writeAll_cons, writeAll_append, Piece.write, writeAll_pieces _ (depth + 2),
        writeAll_childPieces rest depth, callHead, String.append_assoc]
    · exact fun _ h ↦ nomatch h
    · exact fun _ h ↦ nomatch h
  | .literal path value isItem children :: rest, depth => by
    rw [childPieces, childCalls]
    · simp only [writeAll_cons, writeAll_append, Piece.write, writeAll_pieces _ (depth + 2),
        writeAll_childPieces rest depth, callHead, String.append_assoc]
    · exact fun _ h ↦ nomatch h
    · exact fun _ h ↦ nomatch h

end

/-- The pieces make the body. -/
theorem writeAll_bodyPieces (roots : List Outline) :
    writeAll names (bodyPieces roots) = bodyOf names roots := by
  induction roots with
  | nil => rfl
  | cons root rest ih =>
    have hbody : bodyOf names (root :: rest) =
        indent 2 ++ expression names 2 root ++ ",\n" ++ bodyOf names rest := by
      rw [bodyOf, List.map_cons, String.join_cons, ← bodyOf]
    rw [hbody, ← ih, bodyPieces, List.flatMap_cons, ← bodyPieces, writeAll_append, writeAll_cons,
      writeAll_append, writeAll_pieces]
    simp only [writeAll, Piece.write, List.map_cons, List.map_nil, String.join_cons,
      String.join_nil, String.append_empty, String.append_assoc]

end Writing

open Outline

mutual

/-- The types named in an expression are those of the elements, in order. -/
theorem types_pieces : ∀ (x : Outline) (depth : Nat), x.Unwrapped →
    (pieces depth x).filterMap Piece.type? = x.types
  | .fragment _, _, h => h.elim
  | .element type props tag children, depth, h => by
    by_cases htype : type = TypeName.passthrough
    · rw [pieces, if_pos htype, Outline.types, if_pos htype, h.1 htype]
      rfl
    · rw [pieces, if_neg htype, Outline.types, if_neg htype, ← types_childPieces children depth h.2]
      rfl
  | .literal path value isItem children, depth, h => by
    rw [pieces, Outline.types, ← types_childPieces children depth h]
    rfl

theorem types_childPieces : ∀ (xs : List Outline) (depth : Nat), AllUnwrapped xs →
    (childPieces depth xs).filterMap Piece.type? = typesOfAll xs
  | [], _, _ => rfl
  | x :: rest, depth, h => by
    have hfragment : ∀ children, x ≠ .fragment children := by
      rintro children rfl
      exact h.1
    rw [childPieces, typesOfAll, ← types_pieces x (depth + 2) h.1,
      ← types_childPieces rest depth h.2]
    · rw [Piece.filterMap_type?_fixed, List.filterMap_append, Piece.filterMap_type?_fixed]
    · exact fun children heq ↦ hfragment children heq

end

theorem types_bodyPieces {roots : List Outline} (h : AllUnwrapped roots) :
    (bodyPieces roots).filterMap Piece.type? = typesOfAll roots := by
  induction roots with
  | nil => rfl
  | cons root rest ih =>
    rw [typesOfAll, ← ih h.2, ← types_pieces root 2 h.1]
    rw [bodyPieces, List.flatMap_cons, List.cons_append, Piece.filterMap_type?_fixed,
      List.append_assoc, List.filterMap_append]
    rfl

/-! ## Whole programs -/

def preamble (body : String) : String :=
  "// Generated by \x60docweave import\x60.\n\n"
    ++ (if occurs "Literal::".toList body.toList then
          "use docweave::path::DotPath;\nuse docweave::\x7bElement, Literal, Node\x7d;\n"
        else "use docweave::\x7bElement, Node\x7d;\n")
    ++ (if occurs "json!(".toList body.toList then "use serde_json::json;\n" else "")

/-- How the types of decompositions are named in a body, and what is imported for them. -/
structure NamesTypes (index : TypeIndex) (results : List Decompose.Decomposition)
    (names : TypeNames) (body : List Piece) : Prop where
  /-- A decomposition refers to the types of the elements of its tree. -/
  refers : ∀ result ∈ results, ∀ type, type ∈ result.types ↔ type ∈ result.root.types
  named : ∀ type, .type type ∈ body ↔ ∃ result ∈ results, type ∈ result.types
  injective : Function.Injective names.expression
  oneModule : ∀ constant module other, names.Imports module constant →
    names.Imports other constant → module = other
  /-- A constant is imported from a module exactly when it stands in the body for one type, and this
  is the module recorded for the type. -/
  imported : ∀ module constant, names.Imports module constant ↔ '"' ∉ constant.toList ∧
    ∃! type, .type type ∈ body ∧ names.expression type = constant ∧
      index.moduleOf type = some module
  /-- A type whose constant is not imported is written with its full name. -/
  quoted : ∀ type, .type type ∈ body → (∃ module, names.Imports module (names.expression type)) ∨
    names.expression type = quote type.text

section Programs

variable {index : TypeIndex} {results : List Decompose.Decomposition}

theorem mem_bodyPieces (hresults : ∀ result ∈ results,
    Decompose.Made result ∧ TypeName.passthrough ∉ result.types) (type : TypeName) :
    .type type ∈ bodyPieces (results.map Decompose.Decomposition.root) ↔
      ∃ result ∈ results, type ∈ result.types := by
  have hmade (result) (hmem : result ∈ results) :=
    (hresults result hmem).1.types (hresults result hmem).2
  have hunwrapped : AllUnwrapped (results.map Decompose.Decomposition.root) := by
    rw [allUnwrapped_iff, List.forall_mem_map]
    exact fun result hmem ↦ (hmade result hmem).1
  rw [← Piece.mem_filterMap_type?, types_bodyPieces hunwrapped, mem_typesOfAll]
  constructor
  · rintro ⟨root, hroot, htype⟩
    obtain ⟨result, hmem, rfl⟩ := List.mem_map.mp hroot
    exact ⟨result, hmem, ((hmade result hmem).2 type).mpr htype⟩
  · rintro ⟨result, hmem, htype⟩
    exact ⟨result.root, List.mem_map_of_mem hmem, ((hmade result hmem).2 type).mp htype⟩

/-- Source for any decompositions names their types without ambiguity. It consists of the lines in
front, the imports, the head of the function, and the body with the types in their places. -/
theorem program_names_types (index : TypeIndex) (options : Options)
    (hresults : ∀ result ∈ results,
      Decompose.Made result ∧ TypeName.passthrough ∉ result.types) :
    let items := results.map fun result ↦ (result.root, result.types)
    let names := TypeNames.ofTypes index (items.flatMap Prod.snd)
    let body := bodyPieces (items.map Prod.fst)
    NamesTypes index results names body ∧ program index options items =
      preamble (writeAll names body)
        ++ String.join (names.imports.map (importLine options.moduleRoot))
        ++ "\n#[must_use]\npub fn " ++ options.functionName
        ++ "() -> Node \x7b\n    Node::root([\n" ++ writeAll names body ++ "    ])\n\x7d\n" := by
  intro items names body
  have hroots : items.map Prod.fst = results.map Decompose.Decomposition.root := by
    simp [items, Function.comp_def]
  have hbody (type : TypeName) : .type type ∈ body ↔ ∃ result ∈ results, type ∈ result.types := by
    rw [← mem_bodyPieces hresults type, ← hroots]
  have hrefer (type : TypeName) : type ∈ items.flatMap Prod.snd ↔ .type type ∈ body := by
    rw [hbody]
    simp [items]
  have hinjective : Function.Injective names.expression :=
    TypeNames.expression_ofTypes_injective index _
  have himports (module constant : String) : names.Imports module constant ↔
      '"' ∉ constant.toList ∧ ∃ type, .type type ∈ body ∧ names.expression type = constant ∧
        index.moduleOf type = some module := by
    rw [TypeNames.imports_ofTypes_iff]
    simp only [hrefer, names]
  constructor
  · constructor
    · exact fun result hmem ↦ ((hresults result hmem).1.types (hresults result hmem).2).2
    · exact hbody
    · exact hinjective
    · intro constant module other hmodule hother
      obtain ⟨-, type, -, rfl, htype⟩ := (himports module constant).mp hmodule
      obtain ⟨-, type', -, hsame, htype'⟩ := (himports other _).mp hother
      rw [hinjective hsame, htype, Option.some.injEq] at htype'
      exact htype'
    · intro module constant
      rw [himports]
      refine and_congr_right fun _ ↦ ⟨?_, fun ⟨type, htype, _⟩ ↦ ⟨type, htype⟩⟩
      rintro ⟨type, hmem, rfl, hmodule⟩
      exact ⟨type, ⟨hmem, rfl, hmodule⟩, fun other hother ↦ hinjective hother.2.1⟩
    · exact fun type hmem ↦ TypeNames.quoted_or_imported index ((hrefer type).mpr hmem)
  · rw [writeAll_bodyPieces]
    rfl

end Programs

/-- Of two types with one short name the first gets the constant. -/
theorem program_names_types_clash :
    let index := (TypeIndex.empty.setModule ⟨"apps.Pod"⟩ "apps").setModule ⟨"core.Pod"⟩ "core"
    let schema : Schema := ⟨⟨[], []⟩, [], index⟩
    let results := [Decompose.decompose schema "$type" ⟨"core.Pod"⟩ (.object []),
      Decompose.decompose schema "$type" ⟨"apps.Pod"⟩ (.object [])]
    let items := results.map fun result ↦ (result.root, result.types)
    let names := TypeNames.ofTypes index (items.flatMap Prod.snd)
    (∀ result ∈ results, Decompose.Made result ∧ TypeName.passthrough ∉ result.types) ∧
      NamesTypes index results names (bodyPieces (items.map Prod.fst)) ∧
      names.imports = [("apps", ["POD"])] ∧
      names.expression ⟨"apps.Pod"⟩ = "POD" ∧ names.expression ⟨"core.Pod"⟩ ≠ "POD" := by
  intro index schema results items names
  have hresults : ∀ result ∈ results,
      Decompose.Made result ∧ TypeName.passthrough ∉ result.types := by
    refine List.forall_mem_cons.mpr ⟨⟨⟨schema, _, _, .inl ⟨_, rfl⟩⟩, by decide⟩, ?_⟩
    exact List.forall_mem_singleton.mpr ⟨⟨schema, _, _, .inl ⟨_, rfl⟩⟩, by decide⟩
  have hnames := (program_names_types index ⟨"crate", "build"⟩ hresults).1
  have hconstant : names.expression ⟨"apps.Pod"⟩ = "POD" := by decide +kernel
  refine ⟨hresults, hnames, by decide +kernel, hconstant, fun hother ↦ ?_⟩
  exact absurd (hnames.injective (hother.trans hconstant.symm)) (by decide)

end ManifestTree.Source
