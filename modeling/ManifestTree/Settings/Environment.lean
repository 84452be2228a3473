import ManifestTree.Number.Digits
import ManifestTree.Settings.Layer
import ManifestTree.Toml.Quoted

/-!
# Settings from variables

A variable whose name starts with the prefix gives the setting of the rest of its name, in letters
of either case; points in the name divide groups. Its value is read as a truth value, a number, a
text in quotes, a list in brackets or a group in braces if it is one from end to end, and otherwise
is a text as it stands.
-/

namespace ManifestTree.Environment

def namePrefix : String := "DOCWEAVE_"

def isAsciiSpace (c : Char) : Bool :=
  c == ' ' || c == '\t' || c == '\n' || c == '\x0c' || c == '\r'

def isSpace (c : Char) : Bool :=
  let n := c.toNat
  (0x09 ≤ n && n ≤ 0x0D) || n == 0x20 || n == 0x85 || n == 0xA0 || n == 0x1680
    || (0x2000 ≤ n && n ≤ 0x200A) || n == 0x2028 || n == 0x2029 || n == 0x202F || n == 0x205F
    || n == 0x3000

def trim (cs : List Char) : List Char :=
  ((cs.dropWhile isSpace).reverse.dropWhile isSpace).reverse

def skipSpaces (cs : List Char) : List Char := cs.dropWhile isAsciiSpace

def isSeparator (c : Char) : Bool := c == ',' || c == '\x7b' || c == '\x7d' || c == '[' || c == ']'

def isNameChar (c : Char) : Bool := c.isAlphanum || c == '_' || c == '-'

def isReal (cs : List Char) : Bool :=
  cs.contains '.' && (Digits.scaled? (Digits.unsigned cs).2).isSome

def isInteger (cs : List Char) : Bool :=
  let (isNegative, digits) := Digits.unsigned cs
  match Digits.natural? 10 digits with
  | some size => if isNegative then size ≤ Nat.pow 2 63 else size < Nat.pow 2 64
  | none => false

def word (cs : List Char) : Setting :=
  if isReal cs || isInteger cs then .other else .text (String.ofList cs)

/-- A text in double quotes behind the opening one, with the escapes of table files. -/
def quoted? (cs : List Char) : Option (String × List Char) :=
  Toml.Quoted.basicBody? .first (cs.length + 1) "" cs

def memberName? : List Char → Option (String × List Char)
  | '"' :: rest => quoted? rest
  | cs =>
    let name := cs.takeWhile isNameChar
    if name.isEmpty then none else some (String.ofList name, cs.dropWhile isNameChar)

mutual

/-- A value at the front, with the blanks around it. -/
def value? : Nat → List Char → Option (Setting × List Char)
  | 0, _ => none
  | fuel + 1, cs => do
    let (setting, rest) ← match skipSpaces cs with
      | 't' :: 'r' :: 'u' :: 'e' :: rest => some (.other, rest)
      | 'f' :: 'a' :: 'l' :: 's' :: 'e' :: rest => some (.other, rest)
      | '\x7b' :: rest => (members? fuel [] rest).map fun (members, rest) ↦ (.group members, rest)
      | '[' :: rest => (items? fuel rest).map fun rest ↦ (.other, rest)
      | '"' :: rest => (quoted? rest).map fun (text, rest) ↦ (.text text, rest)
      | '\'' :: rest =>
        match rest with
        | c :: '\'' :: rest => some (.text c.toString, rest)
        | _ => none
      | rest =>
        some (word (trim (rest.takeWhile (!isSeparator ·))), rest.dropWhile (!isSeparator ·))
    pure (setting, skipSpaces rest)

def items? : Nat → List Char → Option (List Char)
  | 0, _ => none
  | fuel + 1, cs =>
    match cs with
    | ']' :: rest => some rest
    | cs => do
      let (_, rest) ← value? fuel cs
      match rest with
      | ',' :: rest => items? fuel rest
      | ']' :: rest => pure rest
      | _ => none

def members? : Nat → Setting.Layer → List Char → Option (Setting.Layer × List Char)
  | 0, _, _ => none
  | fuel + 1, members, cs =>
    match cs with
    | '\x7d' :: rest => some (members, rest)
    | cs => do
      let (name, rest) ← memberName? (skipSpaces cs)
      match skipSpaces rest with
      | '=' :: rest =>
        let (setting, rest) ← value? fuel (skipSpaces rest)
        let members := Association.insert name setting members
        match skipSpaces rest with
        | ',' :: rest => members? fuel members rest
        | '\x7d' :: rest => pure (members, rest)
        | _ => none
      | _ => none

end

def setting (value : String) : Setting :=
  let cs := trim value.toList
  match value? (2 * cs.length + 2) cs with
  | some (setting, []) => setting
  | _ => .text (String.ofList cs)

/-- The parts of the setting's name that the name of a variable gives. -/
def way? (name : String) : Option (List String) :=
  let lower := (String.ofList (trim name.toList)).map Char.toLower
  let start := namePrefix.map Char.toLower
  if lower.startsWith start then
    let rest := String.ofList (trim (lower.toList.drop start.length))
    let parts := rest.splitOn "."
    if parts.any String.isEmpty then none else some parts
  else none

def nested (setting : Setting) : List String → Setting
  | [] => setting
  | part :: rest => .group [(part, nested setting rest)]

/-- The layer that variables give, a later one laid over an earlier. -/
def layer (environment : List (String × String)) : Setting.Layer :=
  environment.foldl (fun layer (name, value) ↦
    match way? name with
    | some (part :: rest) => Setting.lay layer [(part, nested (setting value) rest)]
    | _ => layer) []

end ManifestTree.Environment
