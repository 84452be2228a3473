import ManifestTree.FilePath

/-!
# Access to files

What a command asks of the files around it, and the troubles that it may meet there. Whoever runs a
command says how the files are reached.
-/

namespace ManifestTree

/-- Why a file or folder could not be used. -/
inductive FileTrouble where
  | missing
  | present
  | notFolder
  | isFolder
  | escapes
  | nameless
  deriving DecidableEq, Repr, Inhabited

def FileTrouble.text : FileTrouble → String
  | missing => "No such file or directory (os error 2)"
  | present => "File exists (os error 17)"
  | notFolder => "Not a directory (os error 20)"
  | isFolder => "Is a directory (os error 21)"
  | escapes => "a path led outside of the filesystem"
  | nameless => "path names no file"

structure FileAccess (m : Type → Type) where
  hasFile : String → m Bool
  read : String → m (Except FileTrouble String)
  enter : String → m (Except FileTrouble Unit)
  provide : String → m (Except FileTrouble Unit)
  save : String → String → String → m (Except FileTrouble Unit)

/-- Whether parts of a path never lead out of the folder that they start in, some levels below
it. -/
def FilePath.staysInside : Nat → List String → Bool
  | _, [] => true
  | depth, part :: rest =>
    if part == ".." then depth > 0 && staysInside (depth - 1) rest
    else if part.isEmpty || part == "." then staysInside depth rest
    else staysInside (depth + 1) rest

end ManifestTree
