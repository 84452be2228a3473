/-!
# File paths

Paths as texts whose parts are separated by slashes. Empty parts and single dots do not count,
except for a dot in front of all else. The last part is the file's name unless it is one of the
dots; a name is divided at its last dot, which does not count in front.
-/

namespace ManifestTree.FilePath

def isAbsolute (path : String) : Bool := path.startsWith "/"

/-- The parts between the slashes, without the empty one in front of the root. -/
def parts (path : String) : List String :=
  let parts := path.splitOn "/"
  if isAbsolute path then parts.drop 1 else parts

/-- The parts in reverse order, from the last one that counts. -/
def trimmed (isAbsolute : Bool) : List String → List String
  | [] => []
  | part :: before =>
    if part.isEmpty || (part == "." && (isAbsolute || !before.isEmpty)) then
      trimmed isAbsolute before
    else part :: before

/-- The parts up to the last one that counts, in reverse order. -/
def reversed (path : String) : List String := trimmed (isAbsolute path) (parts path).reverse

def name? (path : String) : Option String :=
  match reversed path with
  | [] => none
  | last :: _ => if last == "." || last == ".." then none else some last

/-- The path of the folder that a path is in, empty for a name alone. -/
def parent (path : String) : String :=
  let front := trimmed (isAbsolute path) ((reversed path).drop 1)
  (if isAbsolute path then "/" else "") ++ "/".intercalate front.reverse

def divided (name : String) : String × Option String :=
  match (name.splitOn ".").reverse with
  | last :: before =>
    let stem := ".".intercalate before.reverse
    if before.isEmpty || stem.isEmpty then (name, none) else (stem, some last)
  | [] => (name, none)

def stem? (path : String) : Option String := (name? path).map fun name ↦ (divided name).1

def extension? (path : String) : Option String := (name? path).bind fun name ↦ (divided name).2

/-- A path inside a folder; an absolute path stays as it is. -/
def join (folder path : String) : String :=
  if isAbsolute path || folder.isEmpty then path
  else if folder.endsWith "/" then folder ++ path
  else folder ++ "/" ++ path

end ManifestTree.FilePath
