import ManifestTree.Json.Text
import ManifestTree.Yaml.Text

/-!
# Output formats

Documents are written as a stream or as one indented array of data text.
-/

namespace ManifestTree

/-- A format of composed documents. -/
inductive OutputFormat where
  | yaml
  | json
  deriving DecidableEq, Repr, Inhabited

namespace OutputFormat

def name : OutputFormat → String
  | yaml => "yaml"
  | json => "json"

def ofName? : String → Option OutputFormat
  | "yaml" => some yaml
  | "json" => some json
  | _ => none

structure Unknown where
  word : String
  deriving DecidableEq, Repr

def Unknown.message (unknown : Unknown) : String :=
  "unknown output format '" ++ unknown.word ++ "'; expected yaml or json"

/-- The format that a word names, ASCII letters of either case and the short form included. -/
def ofText (text : String) : Except Unknown OutputFormat :=
  match text.map Char.toLower with
  | "yaml" => .ok yaml
  | "yml" => .ok yaml
  | "json" => .ok json
  | word => .error ⟨word⟩

def write (documents : List Json) : OutputFormat → String
  | yaml => Yaml.text documents
  | json => (Json.array documents).pretty ++ "\n"

end OutputFormat
end ManifestTree
