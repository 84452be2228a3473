import ManifestTree.Decompose
import ManifestTree.Source.TypeNames

/-!
# Source that rebuilds trees

Decomposed documents are written as a function of the target language that builds their trees
again: one builder expression per document, nested by indentation, below the imports that the
expressions need.
-/

namespace ManifestTree.Source

/-- What the generated source is called and where its constants live. -/
structure Options where
  moduleRoot : String
  functionName : String
  deriving DecidableEq, Repr, Inhabited

namespace Options

def defaultModuleRoot : String := "crate::imports"

/-- The function name where nothing better is known. -/
def defaultFunctionName : String := "build"

def default : Options := ⟨defaultModuleRoot, defaultFunctionName⟩

/-- A function name derived from a stem: its words in lower case, with a word in front of a leading
digit. -/
def functionNameFor (stem : String) : String :=
  let name := Text.snakeCase stem
  match name.toList.head? with
  | none => defaultFunctionName
  | some c => if c.isDigit then defaultFunctionName ++ "_" ++ name else name

/-- The options with the function named after a stem. -/
def withFunctionFor (options : Options) (stem : String) : Options :=
  { options with functionName := functionNameFor stem }

end Options

def indent (levels : Nat) : String := String.ofList (List.replicate (4 * levels) ' ')

def stepCalls : List Step → String
  | [] => ""
  | .key name :: rest => ".child_key(" ++ quote name ++ ")" ++ stepCalls rest
  | .index position :: rest => ".child_index(" ++ toString position ++ ")" ++ stepCalls rest

def keysOf (path : FieldPath) : List String :=
  path.steps.filterMap fun step ↦ match step with
    | .key name => some name
    | .index _ => none

def pathExpression (path : FieldPath) : String :=
  if path.keysOnly then "DotPath::keys([" ++ ", ".intercalate ((keysOf path).map quote) ++ "])"
  else "DotPath::root()" ++ stepCalls path.steps

def dataExpression (value : Json) : String := "json!(" ++ dataLiteral value ++ ")"

def propCalls (pad : String) : List (String × Json) → String
  | [] => ""
  | (key, value) :: rest =>
    "\n" ++ pad ++ ".prop(" ++ quote key ++ ", " ++ dataExpression value ++ ")"
      ++ propCalls pad rest

def literalHead (path : FieldPath) (value : Option Json) (isItem : Bool) : String :=
  match value, isItem with
  | some value, true =>
    "Literal::item(" ++ pathExpression path ++ ", " ++ dataExpression value ++ ")"
  | some value, false =>
    "Literal::field(" ++ pathExpression path ++ ", " ++ dataExpression value ++ ")"
  | none, true =>
    "Literal::item(" ++ pathExpression path ++ ", " ++ dataExpression (.object []) ++ ")"
  | none, false => "Literal::open(" ++ pathExpression path ++ ")"

mutual

/-- The expression of an element or a literal at a depth; fragments have none. -/
def expression (names : TypeNames) (depth : Nat) : Outline → String
  | .fragment _ => ""
  | .element type props tag children =>
    if type = TypeName.passthrough then
      "Element::passthrough(" ++ dataExpression (.object props) ++ ")"
    else
      let pad := indent (depth + 1)
      "Element::new(" ++ names.expression type ++ ")"
        ++ (match tag with
          | some tag => "\n" ++ pad ++ ".discriminator(" ++ quote tag ++ ")"
          | none => "")
        ++ propCalls pad props ++ childCalls names depth children
  | .literal path value isItem children =>
    literalHead path value isItem ++ childCalls names depth children

/-- One builder call a child; fragments among the children are left out. -/
def childCalls (names : TypeNames) (depth : Nat) : List Outline → String
  | [] => ""
  | .fragment _ :: rest => childCalls names depth rest
  | child :: rest =>
    let pad := indent (depth + 1)
    "\n" ++ pad ++ ".child(\n" ++ pad ++ "    " ++ expression names (depth + 2) child ++ ",\n"
      ++ pad ++ ")" ++ childCalls names depth rest

end

def occurs (needle : List Char) : List Char → Bool
  | [] => needle.isEmpty
  | c :: rest => needle.isPrefixOf (c :: rest) || occurs needle rest

def bodyOf (names : TypeNames) (roots : List Outline) : String :=
  String.join (roots.map fun root ↦ indent 2 ++ expression names 2 root ++ ",\n")

def importLine (moduleRoot : String) (entry : String × List String) : String :=
  let imported := match entry.2 with
    | [single] => single
    | several => "\x7b" ++ ", ".intercalate several ++ "\x7d"
  "use " ++ moduleRoot ++ "::" ++ entry.1 ++ "::" ++ imported ++ ";\n"

/-- The whole source for documents, given by their roots and the types that they use. -/
def program (index : TypeIndex) (options : Options) (items : List (Outline × List TypeName)) :
    String :=
  let names := TypeNames.ofTypes index (items.flatMap Prod.snd)
  let body := bodyOf names (items.map Prod.fst)
  let mentions := fun needle : String ↦ occurs needle.toList body.toList
  "// Generated by \x60docweave import\x60.\n\n"
    ++ (if mentions "Literal::" then
          "use docweave::path::DotPath;\nuse docweave::\x7bElement, Literal, Node\x7d;\n"
        else "use docweave::\x7bElement, Node\x7d;\n")
    ++ (if mentions "json!(" then "use serde_json::json;\n" else "")
    ++ String.join (names.imports.map (importLine options.moduleRoot))
    ++ "\n#[must_use]\npub fn " ++ options.functionName ++ "() -> Node \x7b\n    Node::root([\n"
    ++ body ++ "    ])\n\x7d\n"

end ManifestTree.Source
