import ManifestTree.OutputFormat
import ManifestTree.Settings.Layer

/-!
# Arguments of the command line

A command, the settings that the caller demands, and the file to take further settings from. An
option takes its value behind an equals sign or from the next argument, and may stand before or
behind the command's name; behind a double hyphen nothing is an option. An option's value is only
looked at when the next argument is taken up, so that the first fault in that order is reported.
-/

namespace ManifestTree.Command

inductive Flag where
  | config
  | catalog
  | output
  | outDir
  | moduleRoot
  | metadataMarker
  | function
  deriving DecidableEq, Repr

inductive Name where
  | importManifest
  | relations
  | synth
  deriving DecidableEq, Repr

/-- Why arguments are not understood, or what else than a command is asked for. -/
inductive UsageFault where
  | help
  | version
  | nothingGiven
  | noCommand
  | unknownCommand
  | unknownArgument
  | missingArgument
  | missingValue
  | invalidValue
  | repeated
  | needlessValue
  deriving DecidableEq, Repr

def UsageFault.text : UsageFault → String
  | .help =>
    "usage: docweave [options] import <manifest> [--function <name>] | relations <parent> "
      ++ "| synth <tree>"
  | .version => "docweave"
  | .nothingGiven => "a command is needed: import, relations or synth"
  | .noCommand => "a command is needed: import, relations or synth"
  | .unknownCommand => "unknown command"
  | .unknownArgument => "unknown argument"
  | .missingArgument => "the command lacks its argument"
  | .missingValue => "an option lacks its value"
  | .invalidValue => "an option has an invalid value"
  | .repeated => "an option is given twice"
  | .needlessValue => "an option takes no value"

inductive Task where
  | importManifest (manifest : String) (function : Option String)
  | relations (parent : String)
  | synth (tree : String)
  deriving DecidableEq, Repr

structure Arguments where
  config : Option String
  demands : Setting.Layer
  task : Task

def Name.ofText? : String → Option Name
  | "import" => some .importManifest
  | "relations" => some .relations
  | "synth" => some .synth
  | _ => none

/-- The word is the name of a command or of the help on commands. -/
def isCommandWord (word : String) : Bool := word == "help" || (Name.ofText? word).isSome

/-- The option of a name, for the arguments of a command or for those in front of it. -/
def Flag.ofText? (name : Option Name) : String → Option Flag
  | "config" => some .config
  | "catalog" => some .catalog
  | "output" => some .output
  | "out-dir" => some .outDir
  | "module-root" => some .moduleRoot
  | "metadata-marker" => some .metadataMarker
  | "function" => if name = some .importManifest then some .function else none
  | _ => none

structure Reading where
  given : Association Flag String
  /-- The option taken up last, with its value once that is there. -/
  pending : Option (Flag × Option String)
  subject : Option String
  isPlain : Bool

namespace Reading

def start : Reading := ⟨[], none, none, false⟩

def accepts (flag : Flag) (value : String) : Bool :=
  flag != .output || (OutputFormat.ofText value).toOption.isSome

def resolve (reading : Reading) : Except UsageFault Reading :=
  match reading.pending with
  | none => .ok reading
  | some (_, none) => .error .missingValue
  | some (flag, some value) =>
    if (Association.get? flag reading.given).isSome then .error .repeated
    else if accepts flag value then
      .ok { reading with given := reading.given ++ [(flag, value)], pending := none }
    else .error .invalidValue

def isWaiting (reading : Reading) : Bool :=
  match reading.pending with
  | some (_, none) => true
  | _ => false

def supply (value : String) (reading : Reading) : Reading :=
  { reading with pending := reading.pending.map fun (flag, _) ↦ (flag, some value) }

/-- The name of an option and its value behind an equals sign. -/
def divided (text : String) : String × Option String :=
  let name := text.toList.takeWhile (· != '=')
  let rest := text.toList.dropWhile (· != '=')
  (String.ofList name, if rest.isEmpty then none else some (String.ofList (rest.drop 1)))

def long (command : Option Name) (text : String) (reading : Reading) :
    Except UsageFault Reading := do
  let (name, value) := divided text
  match Flag.ofText? command name with
  | some flag =>
    let reading ← reading.resolve
    let reading := { reading with pending := some (flag, value) }
    if value.isSome then reading.resolve else pure reading
  | none =>
    if name == "help" || (name == "version" && command.isNone) then
      if value.isSome then throw .needlessValue
      let _ ← reading.resolve
      throw (if name == "help" then .help else .version)
    else throw .unknownArgument

/-- An option by its letter, none of which takes a value. -/
def short (command : Option Name) (letter : Char) (reading : Reading) :
    Except UsageFault Reading := do
  if letter = 'h' then
    let _ ← reading.resolve
    throw .help
  else if letter == 'V' && command.isNone then
    let _ ← reading.resolve
    throw .version
  else throw .unknownArgument

def plain (command : Option Name) (text : String) (reading : Reading) :
    Except UsageFault Reading := do
  match command, reading.subject with
  | some _, none =>
    let reading ← reading.resolve
    pure { reading with subject := some text }
  | some _, some _ => throw .unknownArgument
  | none, _ =>
    throw (if reading.isPlain && isCommandWord text then .unknownArgument else .unknownCommand)

def take (command : Option Name) (argument : String) (reading : Reading) :
    Except UsageFault Reading :=
  if reading.isPlain then reading.plain command argument
  else if argument = "--" then .ok { reading with isPlain := true }
  else
    match argument.toList with
    | '-' :: '-' :: name => reading.long command (String.ofList name)
    | '-' :: letter :: _ => reading.short command letter
    | _ =>
      if reading.isWaiting then .ok (reading.supply argument)
      else reading.plain command argument

def takeAll (command : Option Name) : List String → Reading → Except UsageFault Reading
  | [], reading => .ok reading
  | argument :: rest, reading => do
    let reading ← reading.take command argument
    takeAll command rest reading

end Reading

/-- What is asked for behind the word for help: at most one command. -/
def helpOn : List String → UsageFault
  | [] => .help
  | [word] => if isCommandWord word then .help else .unknownCommand
  | _ => .unknownCommand

/-- The arguments in front of a command taken up, with the command and its own arguments. -/
def takeFront :
    List String → Reading → Except UsageFault (Reading × Option (Name × List String))
  | [], reading => .ok (reading, none)
  | argument :: rest, reading =>
    if !reading.isPlain && !reading.isWaiting && isCommandWord argument then
      match Name.ofText? argument with
      | some name => .ok (reading, some (name, rest))
      | none => .error (helpOn rest)
    else do
      let reading ← reading.take none argument
      takeFront rest reading

def demandsOf (given : Association Flag String) : Setting.Layer :=
  let demand := fun flag name ↦ ((Association.get? flag given).map fun value ↦
    (name, Setting.text value)).toList
  let output := ((Association.get? .output given).bind fun value ↦
    (OutputFormat.ofText value).toOption).map fun format ↦ ("output", Setting.text format.name)
  demand .catalog "catalog" ++ output.toList ++ demand .outDir "out_dir"
    ++ demand .moduleRoot "module_root" ++ demand .metadataMarker "metadata_marker"

def taskOf (name : Name) (subject : String) (given : Association Flag String) : Task :=
  match name with
  | .importManifest => .importManifest subject (Association.get? .function given)
  | .relations => .relations subject
  | .synth => .synth subject

/-- The meaning of arguments; options behind the command's name prevail over those in front of
it. -/
def Arguments.read (arguments : List String) : Except UsageFault Arguments := do
  let (front, command) ← takeFront arguments Reading.start
  match command with
  | none =>
    let front ← front.resolve
    throw (if front.given.isEmpty then .nothingGiven else .noCommand)
  | some (name, rest) =>
    let back ← (← Reading.takeAll (some name) rest Reading.start).resolve
    match back.subject with
    | none => throw .missingArgument
    | some subject =>
      let front ← front.resolve
      let given := back.given ++ front.given
      pure ⟨Association.get? .config given, demandsOf given, taskOf name subject given⟩

end ManifestTree.Command
