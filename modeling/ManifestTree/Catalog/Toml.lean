import ManifestTree.Catalog.Decode
import ManifestTree.Toml.Reader

/-!
# Catalogs in table files

A table file may hold a catalog. Texts and truth values must have their own types, and a list may
stand for a record, its items being the fields in order.
-/

namespace ManifestTree.Catalog

def tomlText? : Toml.Value → Option String
  | .text value => some value
  | _ => none

/-- Table files: records are tables or lists, whose further items are passed over. -/
def tomlDialect : Dialect Toml.Value where
  record
    | .table members => some (.named members)
    | .list items => some (.listed items false)
    | _ => none
  list
    | .list items => some items
    | _ => none
  text := tomlText?
  optionalText value := (tomlText? value).map some
  flag
    | .truth value => some value
    | _ => none

def ofToml? (text : String) : Option Catalog := do
  tomlDialect.catalog? (.table (← Toml.members? .second text))

end ManifestTree.Catalog
