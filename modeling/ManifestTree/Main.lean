import ManifestTree.Command.Run

/-!
# The command line program

Reads arguments and variables, reaches the files of the system and prints the answer. What the
commands do is said in the modules that this one imports.
-/

namespace ManifestTree.CommandLine

/-- The trouble that an error of the system stands for. -/
def troubleOf : IO.Error → FileTrouble
  | .noFileOrDirectory .. => .missing
  | .alreadyExists .. => .present
  | .inappropriateType _ code _ => if code = 21 then .isFolder else .notFolder
  | _ => .missing

def troubled {α : Type} (action : IO α) : IO (Except FileTrouble α) := do
  match ← action.toBaseIO with
  | .ok value => pure (.ok value)
  | .error error => pure (.error (troubleOf error))

/-- A text written under a path inside a folder, unless the path leads out of it. -/
def writeInside (folder path text : String) : IO (Except FileTrouble Unit) :=
  if FilePath.isAbsolute path || !FilePath.staysInside 0 (FilePath.parts path) then
    pure (.error .escapes)
  else troubled (IO.FS.writeFile (FilePath.join folder path) text)

def systemFiles : FileAccess IO where
  hasFile path := do return (← (IO.FS.readFile path).toBaseIO).toOption.isSome
  read path := troubled (IO.FS.readFile path)
  enter path := troubled do
    let _ ← IO.FS.realPath (path ++ "/.")
  provide path := troubled (IO.FS.createDirAll path)
  save := writeInside

def variableNames : List String :=
  ["CATALOG", "OUTPUT", "OUT_DIR", "MODULE_ROOT", "METADATA_MARKER"].map
    (Environment.namePrefix ++ ·)

def environment : IO (List (String × String)) := do
  let values ← variableNames.mapM fun name ↦ do
    return (← IO.getEnv name).map fun value ↦ (name, value)
  return values.filterMap id

end ManifestTree.CommandLine

open ManifestTree

/-- Runs the command of the arguments and prints its answer, or the fault that ended it. -/
def main (arguments : List String) : IO UInt32 := do
  match Command.Arguments.read arguments with
  | .error fault =>
    IO.eprintln fault.text
    return 2
  | .ok arguments =>
    match ← (Command.run CommandLine.systemFiles (← CommandLine.environment) arguments).run with
    | .ok answer =>
      IO.print answer
      return 0
    | .error fault =>
      IO.eprintln fault.text
      return 1
