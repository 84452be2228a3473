import ManifestTree.Association
import ManifestTree.FileAccess

/-!
# Workspaces

The files that a command reads and writes: texts under paths from the folder in which it runs, and
the folders around them. Of what lies outside that folder nothing is known: it counts as a folder
in which nothing is found, and what is written there leaves no trace.
-/

namespace ManifestTree

/-- Files and folders by the names on the way to them. -/
structure Workspace where
  files : Association (List String) String
  folders : List (List String)
  deriving Inhabited

namespace Workspace

inductive Spot where
  | file (names : List String) (text : String)
  | folder (names : List String)
  | outside
  deriving Inhabited

def names (path : String) : List String :=
  (FilePath.parts path).filter fun part ↦ !part.isEmpty && part != "."

/-- A workspace that holds files under the given paths. -/
def ofFiles (files : List (String × String)) : Workspace :=
  ⟨files.foldl (fun done (path, text) ↦ Association.insert (names path) text done) [], []⟩

def hasFolder (workspace : Workspace) (names : List String) : Bool :=
  names.isEmpty || workspace.folders.any (names.isPrefixOf ·)
    || workspace.files.any fun (file, _) ↦ file.length > names.length && names.isPrefixOf file

def spot? (workspace : Workspace) (names : List String) : Option Spot :=
  match Association.get? names workspace.files with
  | some text => some (.file names text)
  | none => if workspace.hasFolder names then some (.folder names) else none

def step (workspace : Workspace) (part : String) : Spot → Except FileTrouble Spot
  | .file _ _ => .error .notFolder
  | .folder names =>
    if part.isEmpty || part == "." then .ok (.folder names)
    else if part == ".." then .ok (if names.isEmpty then .outside else .folder names.dropLast)
    else
      match workspace.spot? (names ++ [part]) with
      | some spot => .ok spot
      | none => .error .missing
  | .outside =>
    if part.isEmpty || part == "." || part == ".." then .ok .outside else .error .missing

def walk (workspace : Workspace) (spot : Spot) : List String → Except FileTrouble Spot
  | [] => .ok spot
  | part :: rest => do
    let spot ← workspace.step part spot
    workspace.walk spot rest

def origin (path : String) : Spot := if FilePath.isAbsolute path then .outside else .folder []

def find (workspace : Workspace) (path : String) : Except FileTrouble Spot :=
  if path.isEmpty then .error .missing else workspace.walk (origin path) (FilePath.parts path)

def textOf : Spot → Except FileTrouble String
  | .file _ text => .ok text
  | _ => .error .isFolder

def read (workspace : Workspace) (path : String) : Except FileTrouble String :=
  (workspace.find path).bind textOf

def isFile (workspace : Workspace) (path : String) : Bool :=
  match workspace.find path with
  | .ok (.file _ _) => true
  | _ => false

def folder (workspace : Workspace) (path : String) : Except FileTrouble Spot :=
  match workspace.find path with
  | .ok (.file _ _) => .error .notFolder
  | other => other

def makeFolders (workspace : Workspace) (spot : Spot) :
    List String → Except FileTrouble (Workspace × Spot)
  | [] => .ok (workspace, spot)
  | part :: rest =>
    match spot, workspace.step part spot with
    | _, .ok (.file _ _) => .error .present
    | _, .ok spot => workspace.makeFolders spot rest
    | .folder names, .error .missing =>
      let names := names ++ [part]
      makeFolders { workspace with folders := workspace.folders ++ [names] } (.folder names) rest
    | .outside, .error .missing => workspace.makeFolders .outside rest
    | _, .error trouble => .error trouble

/-- The folder under a path, made if nothing is there. -/
def openFolder (workspace : Workspace) (path : String) : Except FileTrouble (Workspace × Spot) :=
  match workspace.folder path with
  | .ok spot => .ok (workspace, spot)
  | .error .missing =>
    if path.isEmpty then .error .missing
    else workspace.makeFolders (origin path) (FilePath.parts path)
  | .error trouble => .error trouble

/-- A file written under a path from a folder, which must not lead out of it. -/
def write (workspace : Workspace) (folder : Spot) (path text : String) :
    Except FileTrouble Workspace :=
  if FilePath.isAbsolute path then .error .escapes
  else
    let parts := FilePath.parts path
    match workspace.walk folder parts.dropLast with
    | .error trouble => .error trouble
    | .ok spot =>
      if !FilePath.staysInside 0 parts then .error .escapes
      else
        match spot, parts.getLast? with
        | .file _ _, _ => .error .notFolder
        | .folder names, some name =>
          if workspace.hasFolder (names ++ [name]) then .error .isFolder
          else
            .ok { workspace with
              files := Association.insert (names ++ [name]) text workspace.files }
        | _, _ => .ok workspace

/-- The files that differ from those of an earlier state, by their paths in order. -/
def changes (before after : Workspace) : List (String × String) :=
  let changed := after.files.filter fun (names, text) ↦
    Association.get? names before.files != some text
  (changed.map fun (names, text) ↦ ("/".intercalate names, text)).mergeSort fun x y ↦ x.1 ≤ y.1

/-- Outcome and state of a step that may change the workspace. -/
def settle {α : Type} (workspace : Workspace) : Except FileTrouble (Workspace × α) →
    Except FileTrouble Unit × Workspace
  | .ok (workspace, _) => (.ok (), workspace)
  | .error trouble => (.error trouble, workspace)

/-- The files of a workspace, reached by a command that runs in it. -/
def access : FileAccess (StateM Workspace) where
  hasFile path := do return (← get).isFile path
  read path := do return (← get).read path
  enter path := do return ((← get).folder path).map fun _ ↦ ()
  provide path := modifyGet fun workspace ↦ workspace.settle (workspace.openFolder path)
  save folder path text := modifyGet fun workspace ↦
    workspace.settle do
      let spot ← workspace.folder folder
      let workspace ← workspace.write spot path text
      pure (workspace, ())

end Workspace
end ManifestTree
