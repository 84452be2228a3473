import ManifestTree.FieldRules
import ManifestTree.OutputFormat
import ManifestTree.Settings.Environment
import ManifestTree.Source.Program
import ManifestTree.Toml.Reader

/-!
# Settings

What a command works with: defaults, over which come a file of settings, variables, and what the
caller demands. Names that no setting has are passed over; a value of the wrong form is a fault,
wherever it comes from.
-/

namespace ManifestTree

structure Settings where
  catalog : Option String
  output : OutputFormat
  outDir : String
  moduleRoot : String
  metadataMarker : String
  deriving DecidableEq, Repr, Inhabited

namespace Settings

def default : Settings := ⟨none, .yaml, "imports", "crate::imports", FieldRules.defaultMarker⟩

/-- The file that is looked for where the caller names none. -/
def fileName : String := "docweave.toml"

def toJson (settings : Settings) : Json :=
  .object [("catalog", (settings.catalog.map Json.string).getD .null),
    ("output", .string settings.output.name), ("out_dir", .string settings.outDir),
    ("module_root", .string settings.moduleRoot),
    ("metadata_marker", .string settings.metadataMarker)]

def text? (layer : Setting.Layer) (name : String) : Option String :=
  match Association.get? name layer with
  | some (.text value) => some value
  | _ => none

def optionalText? (layer : Setting.Layer) (name : String) : Option (Option String) :=
  match Association.get? name layer with
  | some (.text value) => some (some value)
  | some .nothing => some none
  | _ => none

def leastMember? (members : Setting.Layer) : Option (String × Setting) :=
  members.foldl (fun least member ↦ match least with
    | some (name, setting) => some (if member.1 < name then member else (name, setting))
    | none => some member) none

/-- A format by its name, or by a group that holds nothing under it. -/
def format? (layer : Setting.Layer) (name : String) : Option OutputFormat :=
  match Association.get? name layer with
  | some (.text value) => OutputFormat.ofName? value
  | some (.group members) =>
    match leastMember? members with
    | some (value, .nothing) => OutputFormat.ofName? value
    | _ => none
  | _ => none

def ofLayer? (layer : Setting.Layer) : Option Settings := do
  pure {
    catalog := ← optionalText? layer "catalog"
    output := ← format? layer "output"
    outDir := ← text? layer "out_dir"
    moduleRoot := ← text? layer "module_root"
    metadataMarker := ← text? layer "metadata_marker" }

/-- The settings in force: defaults, the text of a file, variables and demands of the caller, each
laid over the ones before. -/
def read? (text : String) (environment : List (String × String)) (demands : Setting.Layer) :
    Option Settings := do
  let members ← Toml.members? .first text
  let layers := [Setting.ofJsonMembers default.toJson.members, Setting.ofTomlMembers members,
    Environment.layer environment, demands]
  ofLayer? (layers.foldl Setting.lay [])

def sourceOptions (settings : Settings) : Source.Options :=
  { Source.Options.default with moduleRoot := settings.moduleRoot }

end Settings
end ManifestTree
