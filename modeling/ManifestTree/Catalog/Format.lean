import ManifestTree.Catalog.Toml
import ManifestTree.Catalog.Yaml
import ManifestTree.FilePath
import ManifestTree.Json.Reader

/-!
# Catalog formats

The notation of a catalog file shows in the extension of its name, in letters of either case.
-/

namespace ManifestTree.Catalog

inductive Format where
  | json
  | yaml
  | toml
  deriving DecidableEq, Repr, Inhabited

def Format.ofPath? (path : String) : Option Format :=
  match (FilePath.extension? path).map (·.map Char.toLower) with
  | some "json" => some .json
  | some "yaml" => some .yaml
  | some "yml" => some .yaml
  | some "toml" => some .toml
  | _ => none

def ofJson? (text : String) : Option Catalog := (Json.read? text).bind jsonDialect.catalog?

def read? (text : String) : Format → Option Catalog
  | .json => ofJson? text
  | .yaml => ofYaml? text
  | .toml => ofToml? text

end ManifestTree.Catalog
