import ManifestTree.Json.Text
import ManifestTree.Yaml.Character
import ManifestTree.Yaml.Scalar
import ManifestTree.Yaml.Token

/-!
# How texts are written

A text is written as plainly as it can be read back. Several lines make a block of kept lines, a
text that would be taken for something else gets single quotes, and a text that neither can carry
gets double quotes.
-/

namespace ManifestTree.Yaml.Presentation

/-- Characters that need no escape: no controls but the line feed, and no byte order mark. -/
def isPrintable (c : Char) : Bool :=
  let n := c.toNat
  n == 0x0A || (0x20 ≤ n && n ≤ 0x7E) || (0xA0 ≤ n && n ≤ 0xFFFD && n != 0xFEFF)
    || 0x10000 ≤ n

/-- A character of the first class is directly in front of one of the second. -/
def hasPair (first second : Char → Bool) : List Char → Bool
  | a :: b :: rest => (first a && second b) || hasPair first second (b :: rest)
  | _ => false

/-- The text is read as something else than itself when it has no quotes. -/
def readsOtherwise (text : String) : Bool :=
  match Scalar.value? text with
  | some (.string _) => Scalar.hasNeedlessZeros (Digits.unsigned text.toList).2
  | _ => true

/-- The first character means something at the front of a plain text. -/
def startsWithIndicator : List Char → Bool
  | [] => false
  | c :: rest =>
    if c == '-' || c == '?' || c == ':' then endsWord rest else isIndicator c

/-- A colon or number sign inside would end a plain text. -/
def hasInnerIndicator : List Char → Bool
  | before :: c :: rest =>
    (c == ':' && endsWord rest) || (c == '#' && isSpace before) || hasInnerIndicator (c :: rest)
  | _ => false

def startsWithMark (cs : List Char) : Bool :=
  cs.take 3 == ['-', '-', '-'] || cs.take 3 == ['.', '.', '.']

def allowsPlain (cs : List Char) : Bool :=
  cs.all isPrintable && !cs.any isBreak && cs.head? != some ' ' && cs.getLast? != some ' '
    && !startsWithIndicator cs && !hasInnerIndicator cs && !startsWithMark cs

def allowsSingle (cs : List Char) : Bool :=
  cs.all isPrintable && !hasPair (· == ' ') isBreak cs && !hasPair isBreak (· == ' ') cs

def allowsLiteral (cs : List Char) : Bool :=
  cs.all isPrintable && !hasPair (· == ' ') isBreak cs && cs.getLast? != some ' '

def style (text : String) : Style :=
  let cs := text.toList
  if cs.contains '\n' then if allowsLiteral cs then .literal else .double
  else if !readsOtherwise text && allowsPlain cs then .plain
  else if allowsSingle cs then .single
  else .double

/-- The text can be a key on one line: no line break, and at most 128 octets. -/
def isSimpleKey (text : String) : Bool := !text.toList.any isBreak && text.utf8ByteSize ≤ 128

def blanks (count : Nat) : String := String.ofList (List.replicate count ' ')

/-- The lines of a text, where every character behind a line break is indented. -/
def indented (indent : Nat) (escape : Char → String) : Bool → List Char → String
  | _, [] => ""
  | atStart, c :: rest =>
    if isBreak c then c.toString ++ indented indent escape true rest
    else (if atStart then blanks indent else "") ++ escape c ++ indented indent escape false rest

/-- A text between single quotes, going on at an indentation behind a line break. -/
def single (indent : Nat) (cs : List Char) : String :=
  let escape := fun c ↦ if c = '\'' then "''" else c.toString
  "'" ++ indented indent escape false cs
    ++ (if cs.getLast?.any isBreak then blanks indent else "") ++ "'"

/-- The number of a character in an escape: two, four or eight digits. -/
def numericEscape (c : Char) : String :=
  let digits := fun width ↦ (Json.hexDigits width c.toNat).toUpper
  if c.toNat ≤ 0xFF then "\\x" ++ digits 2
  else if c.toNat ≤ 0xFFFF then "\\u" ++ digits 4
  else "\\U" ++ digits 8

def escape (c : Char) : String :=
  match c with
  | '\x00' => "\\0"
  | '\x07' => "\\a"
  | '\x08' => "\\b"
  | '\t' => "\\t"
  | '\n' => "\\n"
  | '\x0b' => "\\v"
  | '\x0c' => "\\f"
  | '\r' => "\\r"
  | '\x1b' => "\\e"
  | '"' => "\\\""
  | '\\' => "\\\\"
  | '\u0085' => "\\N"
  | '\u2028' => "\\L"
  | '\u2029' => "\\P"
  | c => if isPrintable c then c.toString else numericEscape c

def double (cs : List Char) : String := "\"" ++ String.join (cs.map escape) ++ "\""

/-- The header of a block of kept lines: a depth where the first line does not show it, and what
becomes of the line breaks at the end. -/
def literalHeader (cs : List Char) : String :=
  let depth := if cs.head?.any fun c ↦ c == ' ' || isBreak c then "2" else ""
  let ending := match cs.reverse with
    | last :: before =>
      if !isBreak last then "-" else if before.isEmpty || before.head?.any isBreak then "+" else ""
    | [] => "-"
  "|" ++ depth ++ ending

/-- A text on its own line or lines, up to the start of the next line. -/
def lines (indent : Nat) (text : String) : String :=
  let cs := text.toList
  match style text with
  | .plain => text ++ "\n"
  | .single => single indent cs ++ "\n"
  | .double => double cs ++ "\n"
  | _ =>
    literalHeader cs ++ "\n" ++ indented indent Char.toString true cs
      ++ (if cs.getLast?.any isBreak then "" else "\n")

def key (text : String) : String :=
  match style text with
  | .plain => text
  | .single => single 0 text.toList
  | _ => double text.toList

end ManifestTree.Yaml.Presentation
