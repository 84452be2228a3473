import ManifestTree.Number.Digits
import ManifestTree.Yaml.Cursor

/-!
# Quoted texts

Between single quotes a doubled quote stands for one and nothing else is special. Between double
quotes a backslash starts an escape. Either may go on over several lines, whose breaks are folded.
-/

namespace ManifestTree.Yaml.Quoted

/-- The characters that a backslash and one letter stand for. -/
def letterEscape? : Char → Option Char
  | '0' => some '\x00'
  | 'a' => some '\x07'
  | 'b' => some '\x08'
  | 't' => some '\t'
  | '\t' => some '\t'
  | 'n' => some '\n'
  | 'v' => some '\x0b'
  | 'f' => some '\x0c'
  | 'r' => some '\r'
  | 'e' => some '\x1b'
  | ' ' => some ' '
  | '"' => some '"'
  | '/' => some '/'
  | '\\' => some '\\'
  | 'N' => some '\u0085'
  | '_' => some '\u00a0'
  | 'L' => some '\u2028'
  | 'P' => some '\u2029'
  | _ => none

/-- How many hexadecimal digits follow a letter that announces a character by number. -/
def numericWidth? : Char → Option Nat
  | 'x' => some 2
  | 'u' => some 4
  | 'U' => some 8
  | _ => none

/-- The character of an escape and the count of characters behind the backslash. -/
def escape? : List Char → Option (Char × Nat)
  | [] => none
  | letter :: rest =>
    match numericWidth? letter with
    | none => (letterEscape? letter).map fun c ↦ (c, 1)
    | some width => (Digits.character? width rest).map fun c ↦ (c, width + 1)

/-- Part of a quoted text up to a space, the closing quote or an escaped line break. -/
structure Part where
  text : String
  cursor : Cursor
  joined : Bool

def singlePart : Nat → String → Cursor → Part
  | 0, text, cursor => ⟨text, cursor, false⟩
  | fuel + 1, text, cursor =>
    match cursor.rest with
    | [] => ⟨text, cursor, false⟩
    | '\'' :: '\'' :: _ => singlePart fuel (text.push '\'') (cursor.skip 2)
    | c :: _ =>
      if isSpace c || c == '\'' then ⟨text, cursor, false⟩
      else singlePart fuel (text.push c) (cursor.skip 1)

def doublePart? : Nat → String → Cursor → Option Part
  | 0, text, cursor => some ⟨text, cursor, false⟩
  | fuel + 1, text, cursor =>
    match cursor.rest with
    | [] => some ⟨text, cursor, false⟩
    | c :: rest =>
      if isSpace c || c == '"' then some ⟨text, cursor, false⟩
      else if c == '\\' then
        if rest.head?.any isBreak then some ⟨text, (cursor.skip 1).lineBreak.2, true⟩
        else
          match escape? rest with
          | none => none
          | some (escaped, count) => doublePart? fuel (text.push escaped) (cursor.skip (count + 1))
      else doublePart? fuel (text.push c) (cursor.skip 1)

def part? (single : Bool) (text : String) (cursor : Cursor) : Option Part :=
  let fuel := cursor.rest.length
  if single then some (singlePart fuel text cursor) else doublePart? fuel text cursor

/-- Reads up to the closing quote; no line starts with a document mark. -/
def continue? (single : Bool) : Nat → String → Cursor → Option (String × Cursor)
  | 0, _, _ => none
  | fuel + 1, text, cursor =>
    if cursor.atDocumentMark || cursor.rest.isEmpty then none
    else
      match part? single text cursor with
      | none => none
      | some part =>
        if part.cursor.sees (if single then '\'' else '"') then some (part.text, part.cursor.skip 1)
        else
          let gap := if part.joined then Gap.joined else Gap.none
          match Gap.extend? 0 part.cursor.rest.length gap part.cursor with
          | none => none
          | some (gap, cursor) => continue? single fuel (part.text ++ gap.text) cursor

def read? (single : Bool) (cursor : Cursor) : Option (String × Cursor) :=
  continue? single (cursor.rest.length + 1) "" cursor

end ManifestTree.Yaml.Quoted
