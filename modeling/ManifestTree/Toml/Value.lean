import ManifestTree.Association

/-!
# Values of table files

What a table file holds: texts, truth values, numbers, moments, lists and tables. Real numbers and
moments are kept as they are written, because nothing is computed with them.
-/

namespace ManifestTree.Toml

/-- An edition of the notation. The later one adds two escapes, line breaks and a last comma in
tables between braces, and times without seconds. -/
inductive Edition where
  | first
  | second
  deriving DecidableEq, Repr

inductive Value where
  | text (value : String)
  | truth (value : Bool)
  | integer (value : Int)
  | real (written : String)
  | moment (written : String)
  | list (items : List Value)
  | table (members : List (String × Value))
  deriving Inhabited

end ManifestTree.Toml
