import ManifestTree.Yaml.Character

/-!
# Cursors

Where reading of a text stands: the characters still to come, and how many characters, lines and
columns lie behind. A pair of carriage return and line feed is one line break. A gap is what lies
between two parts of a text that may go on over several lines.
-/

namespace ManifestTree.Yaml

/-- A place in a text that is being read. -/
structure Cursor where
  rest : List Char
  index : Nat
  line : Nat
  column : Nat
  deriving Inhabited

namespace Cursor

def start (text : List Char) : Cursor := ⟨text, 0, 0, 0⟩

/-- The place some characters further on the same line. -/
def skip (cursor : Cursor) (count : Nat) : Cursor :=
  ⟨cursor.rest.drop count, cursor.index + count, cursor.line, cursor.column + count⟩

def skipWhile (cursor : Cursor) (holds : Char → Bool) : Cursor :=
  cursor.skip (cursor.rest.takeWhile holds).length

def sees (cursor : Cursor) (c : Char) : Bool := cursor.rest.head? == some c

def seesAny (cursor : Cursor) (holds : Char → Bool) : Bool := cursor.rest.head?.any holds

/-- The text that the line break at hand stands for, and the place behind it. -/
def lineBreak (cursor : Cursor) : String × Cursor :=
  match cursor.rest with
  | '\r' :: '\n' :: rest => ("\n", ⟨rest, cursor.index + 2, cursor.line + 1, 0⟩)
  | c :: rest =>
    if c == '\u2028' || c == '\u2029' then
      (c.toString, ⟨rest, cursor.index + 1, cursor.line + 1, 0⟩)
    else if isBreak c then ("\n", ⟨rest, cursor.index + 1, cursor.line + 1, 0⟩)
    else ("", cursor)
  | [] => ("", cursor)

def atLineEnd (cursor : Cursor) : Bool := cursor.rest.isEmpty || cursor.seesAny isBreak

def skipBlanks (cursor : Cursor) : Cursor := cursor.skipWhile isBlank

def skipComment (cursor : Cursor) : Cursor :=
  if cursor.sees '#' then cursor.skipWhile (!isBreak ·) else cursor

/-- The place behind the rest of a line that may hold only a comment. -/
def finishLine? (cursor : Cursor) : Option Cursor :=
  let cursor := cursor.skipBlanks.skipComment
  if cursor.atLineEnd then some cursor.lineBreak.2 else none

/-- Three hyphens or three dots fill a word at the front of a line. -/
def atDocumentMark (cursor : Cursor) : Bool :=
  cursor.column == 0
    && (cursor.rest.take 3 == ['-', '-', '-'] || cursor.rest.take 3 == ['.', '.', '.'])
    && endsWord (cursor.rest.drop 3)

end Cursor

/-- What lies between two parts of a text. -/
structure Gap where
  blanks : String
  broken : Bool
  first : String
  more : String
  deriving Inhabited

namespace Gap

def none : Gap := ⟨"", false, "", ""⟩

def joined : Gap := ⟨"", true, "", ""⟩

/-- What a gap contributes: its blanks; a lone line break becomes a blank, and the first of several
is dropped. -/
def text (gap : Gap) : String :=
  if !gap.broken then gap.blanks
  else if gap.first = "\n" then (if gap.more.isEmpty then " " else gap.more)
  else gap.first ++ gap.more

/-- Reads on through a gap; behind a line break no tab may stand before column `least`. -/
def extend? (least : Nat) : Nat → Gap → Cursor → Option (Gap × Cursor)
  | 0, gap, cursor => some (gap, cursor)
  | fuel + 1, gap, cursor =>
    match cursor.rest with
    | [] => some (gap, cursor)
    | c :: _ =>
      if isBlank c then
        if !gap.broken then
          extend? least fuel { gap with blanks := gap.blanks.push c } (cursor.skip 1)
        else if c = '\t' ∧ cursor.column < least then Option.none
        else extend? least fuel gap (cursor.skip 1)
      else if isBreak c then
        let (text, cursor) := cursor.lineBreak
        if gap.broken then extend? least fuel { gap with more := gap.more ++ text } cursor
        else extend? least fuel ⟨"", true, text, ""⟩ cursor
      else some (gap, cursor)

end Gap
end ManifestTree.Yaml
