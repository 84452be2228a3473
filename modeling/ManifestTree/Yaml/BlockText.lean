import ManifestTree.Yaml.Cursor

/-!
# Block texts

A text of whole lines, indented more than what surrounds it. Its header says whether the lines are
kept or folded, how deep they are indented and what becomes of the line breaks at the end.
-/

namespace ManifestTree.Yaml.BlockText

/-- What becomes of the line breaks at the end of a text. -/
inductive Ending where
  | strip
  | clip
  | keep
  deriving DecidableEq, Repr

def ending? : Char → Option Ending
  | '+' => some .keep
  | '-' => some .strip
  | _ => none

def ending (cursor : Cursor) : Ending × Cursor :=
  match cursor.rest.head?.bind ending? with
  | some ending => (ending, cursor.skip 1)
  | none => (.clip, cursor)

/-- The digit of the indentation at the front, if one is given; zero is refused. -/
def depth? (cursor : Cursor) : Option (Option Nat × Cursor) :=
  match cursor.rest.head? with
  | some c =>
    if c = '0' then none
    else if c.isDigit then some (some (c.toNat - '0'.toNat), cursor.skip 1)
    else some (none, cursor)
  | none => some (none, cursor)

/-- The ending and the indentation of a header, in either order. -/
def header? (cursor : Cursor) : Option (Ending × Option Nat × Cursor) :=
  if cursor.seesAny Char.isDigit then do
    let (depth, cursor) ← depth? cursor
    let (ending, cursor) := ending cursor
    pure (ending, depth, cursor)
  else do
    let (ending, signless) := ending cursor
    if signless.index = cursor.index then pure (ending, none, cursor)
    else
      let (depth, cursor) ← depth? signless
      pure (ending, depth, cursor)

/-- Line breaks of lines without content. -/
structure Vacancy where
  breaks : String
  deepest : Nat
  cursor : Cursor

/-- Reads lines without content; blanks count up to the indentation, where a tab may not stand. -/
def vacancy? (depth : Option Nat) : Nat → Vacancy → Option Vacancy
  | 0, vacancy => some vacancy
  | fuel + 1, vacancy =>
    let cursor := vacancy.cursor
    let blanks := (cursor.rest.takeWhile (· == ' ')).length
    let cursor := cursor.skip (match depth with
      | some depth => min blanks (depth - cursor.column)
      | none => blanks)
    let deepest := max vacancy.deepest cursor.column
    if cursor.sees '\t' && depth.all (cursor.column < ·) then none
    else if !cursor.seesAny isBreak then some ⟨vacancy.breaks, deepest, cursor⟩
    else
      let (text, cursor) := cursor.lineBreak
      vacancy? depth fuel ⟨vacancy.breaks ++ text, deepest, cursor⟩

/-- A block text on the way: what stands, the line break behind it, and the ones after that. -/
structure Lines where
  text : String
  last : String
  breaks : String
  indented : Bool
  cursor : Cursor

/-- What joins the next line to the ones before: between two lines that start without a blank, a
folded text has a blank in place of a lone line break. -/
def Lines.seam (folded : Bool) (lines : Lines) : String :=
  if folded && lines.last == "\n" && !lines.indented && !lines.cursor.seesAny isBlank then
    if lines.breaks.isEmpty then " " else lines.breaks
  else lines.last ++ lines.breaks

/-- Reads lines as long as they are indented as deep as the first. -/
def lines? (folded : Bool) (depth : Nat) : Nat → Lines → Option Lines
  | 0, lines => some lines
  | fuel + 1, lines =>
    let cursor := lines.cursor
    if cursor.column ≠ depth ∨ cursor.rest.isEmpty then some lines
    else
      let content := cursor.rest.takeWhile (!isBreak ·)
      let text := lines.text ++ lines.seam folded ++ String.ofList content
      let (last, behind) := (cursor.skip content.length).lineBreak
      match vacancy? (some depth) (behind.rest.length + 1) ⟨"", 0, behind⟩ with
      | none => none
      | some vacancy =>
        lines? folded depth fuel
          ⟨text, last, vacancy.breaks, cursor.seesAny isBlank, vacancy.cursor⟩

def Ending.apply (ending : Ending) (lines : Lines) : String :=
  match ending with
  | .strip => lines.text
  | .clip => lines.text ++ lines.last
  | .keep => lines.text ++ lines.last ++ lines.breaks

/-- Reads a block text behind its indicator, in a block whose content starts at column `least`. -/
def read? (folded : Bool) (least : Nat) (cursor : Cursor) : Option (String × Cursor) := do
  let (ending, depth, cursor) ← header? cursor
  let cursor ← cursor.finishLine?
  let depth := depth.map fun digit ↦ least - 1 + digit
  let vacancy ← vacancy? depth (cursor.rest.length + 1) ⟨"", 0, cursor⟩
  let depth := depth.getD (max vacancy.deepest (max least 1))
  let lines ← lines? folded depth (vacancy.cursor.rest.length + 1)
    ⟨"", "", vacancy.breaks, false, vacancy.cursor⟩
  pure (ending.apply lines, lines.cursor)

end ManifestTree.Yaml.BlockText
