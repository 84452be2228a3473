import ManifestTree.Catalog.Format
import ManifestTree.Command.Arguments
import ManifestTree.Compose
import ManifestTree.FileAccess
import ManifestTree.Outline.Codec
import ManifestTree.Settings

/-!
# Running commands

A command loads its settings, then the catalog that they name, and then does its work: it turns a
manifest into source, lists the relations under a type, or composes the documents of a tree. What
it prints is its answer. The first fault ends it.
-/

namespace ManifestTree.Command

/-- What is wrong with a file that is needed to begin with. -/
inductive FileFault where
  | absent
  | unknownNotation
  | trouble (trouble : FileTrouble)
  | malformed
  deriving DecidableEq, Repr

/-- The wording of what is wrong with a file, where the wording is ours. -/
def FileFault.text? : FileFault → Option String
  | .absent => some "entity not found"
  | .unknownNotation => some "unsupported catalog extension; expected json, yaml, yml or toml"
  | .trouble cause => some cause.text
  | .malformed => none

/-- Why a command ends without an answer. -/
inductive Fault where
  | file (path : String) (fault : FileFault)
  | settings
  | noCatalog
  | access (path : String) (trouble : FileTrouble)
  | stream
  | noDocument (path : String)
  | noTree (path : String)
  | failure (cause : Failure)
  deriving Repr

/-- The wording of a fault, where the wording is ours. -/
def Fault.message? : Fault → Option String
  | .file path fault => fault.text?.map fun text ↦ "file error in '" ++ path ++ "': " ++ text
  | .settings => none
  | .noCatalog =>
    some "no catalog configured; pass --catalog or set \x60catalog\x60 in docweave.toml"
  | .access path trouble => some ("I/O error at " ++ path ++ ": " ++ trouble.text)
  | .stream => none
  | .noDocument path => some ("'" ++ path ++ "' holds no documents")
  | .noTree _ => none
  | .failure cause => some cause.message

def Fault.text (fault : Fault) : String :=
  match fault.message? with
  | some message => message
  | none =>
    match fault with
    | .file path _ => "file error in '" ++ path ++ "': malformed catalog"
    | .settings => "invalid settings"
    | .noTree path => "'" ++ path ++ "' is not a node tree"
    | _ => "malformed document stream"

variable {m : Type → Type} [Monad m] (files : FileAccess m)

/-- An outcome of the file access as a step of a command. -/
def attempt {α : Type} (path : String) (step : m (Except FileTrouble α)) :
    ExceptT Fault m α := do
  match ← (step : m _) with
  | .ok value => pure value
  | .error trouble => throw (.access path trouble)

def expect {α : Type} (fault : Fault) : Option α → ExceptT Fault m α
  | some value => pure value
  | none => throw fault

/-- The text of the file of settings: the one that is named, or the usual one if it is there. -/
def settingsText (config : Option String) : ExceptT Fault m String := do
  let path := config.getD Settings.fileName
  if ← files.hasFile path then return (← files.read path).toOption.getD ""
  else if config.isSome then throw (.file path .absent)
  else return ""

def settings (environment : List (String × String)) (config : Option String)
    (demands : Setting.Layer) : ExceptT Fault m Settings := do
  let text ← settingsText files config
  expect .settings (Settings.read? text environment demands)

/-- The schema of the catalog that the settings name. -/
def schema (settings : Settings) : ExceptT Fault m Schema := do
  let path ← expect .noCatalog settings.catalog
  let format ← expect (.file path .unknownNotation) (Catalog.Format.ofPath? path)
  match ← (files.read path : m _) with
  | .error trouble => throw (.file path (.trouble trouble))
  | .ok text =>
    let catalog ← expect (.file path .malformed) (Catalog.read? text format)
    match catalog.compile with
    | .ok schema => pure schema
    | .error cause => throw (.failure cause)

/-- The documents of a file. Its folder is entered first, and may be what is in trouble. -/
def documents (path : String) : ExceptT Fault m (List Json) := do
  let name ← expect (.access path .nameless) (FilePath.name? path)
  let folder := FilePath.parent path
  let folder := if folder.isEmpty then "." else folder
  attempt folder (files.enter folder)
  let text ← attempt path (files.read (FilePath.join folder name))
  expect .stream (Yaml.documents? text)

/-- Turns a manifest into source, and answers where the source was put. -/
def importManifest (settings : Settings) (schema : Schema) (manifest : String)
    (function : Option String) : ExceptT Fault m String := do
  let documents ← documents files manifest
  if documents.isEmpty then throw (.noDocument manifest)
  let parts := documents.map (Decompose.decomposeDocument schema settings.metadataMarker)
  let stem := (FilePath.stem? manifest).getD "manifest"
  let options := settings.sourceOptions.withFunctionFor stem
  let options := { options with functionName := function.getD options.functionName }
  let name := options.functionName ++ ".rs"
  let source := Source.program schema.types options (parts.map fun part ↦ (part.root, part.types))
  let path := FilePath.join settings.outDir name
  attempt settings.outDir (files.provide settings.outDir)
  attempt path (files.save settings.outDir name source)
  pure (path ++ "\n")

/-- The line of a relation: child, path, multiplicity, and the tag that selects it if one is
needed. -/
def relationLine (relations : Relations) (relation : Relation) : String :=
  "\t".intercalate [relation.child.text, relation.path.text,
    if relation.isMany then "array" else "single", (relations.selector relation).getD "-"] ++ "\n"

def relations (schema : Schema) (parent : String) : String :=
  String.join ((schema.relations.under ⟨parent⟩).map (relationLine schema.relations))

def synth (settings : Settings) (schema : Schema) (tree : String) : ExceptT Fault m String := do
  let documents ← documents files tree
  let first ← expect (.noDocument tree) documents.head?
  let outline ← expect (.noTree tree) (Outline.ofJson? first)
  match Compose.compose ⟨schema, settings.metadataMarker, []⟩ outline.toNode with
  | .ok composed => pure (settings.output.write composed)
  | .error cause => throw (.failure cause)

/-- Does what the arguments say, and answers what is printed. -/
def run (environment : List (String × String)) (arguments : Arguments) :
    ExceptT Fault m String := do
  let settings ← settings files environment arguments.config arguments.demands
  let schema ← schema files settings
  match arguments.task with
  | .importManifest manifest function => importManifest files settings schema manifest function
  | .relations parent => pure (relations schema parent)
  | .synth tree => synth files settings schema tree

end ManifestTree.Command
