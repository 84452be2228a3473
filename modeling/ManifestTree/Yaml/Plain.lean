import ManifestTree.Yaml.Cursor

/-!
# Plain texts

A text without quotes ends before a colon or number sign that stands as an indicator, in brackets
also before a bracket or comma, and in a block where the indentation falls back. It may go on over
several lines.
-/

namespace ManifestTree.Yaml.Plain

/-- The characters up to a space or an indicator; in brackets, a colon before a bracket is
refused. -/
def run? (bracketed : Bool) : List Char → Option (List Char)
  | [] => some []
  | c :: rest =>
    if isSpace c then some []
    else if bracketed && c == ':' && rest.head?.any (fun d ↦ d == '?' || isBracketed d) then
      none
    else if c == ':' && endsWord rest then some []
    else if bracketed && isBracketed c then some []
    else (run? bracketed rest).map (c :: ·)

/-- A plain text that has been read. -/
structure Reading where
  text : String
  cursor : Cursor
  broken : Bool

/-- Reads a plain text on from behind a gap; in a block, lines start at column `least` or later. -/
def continue? (bracketed : Bool) (least : Nat) :
    Nat → String → Gap → Cursor → Option Reading
  | 0, text, gap, cursor => some ⟨text, cursor, gap.broken⟩
  | fuel + 1, text, gap, cursor =>
    if cursor.atDocumentMark || cursor.sees '#' then some ⟨text, cursor, gap.broken⟩
    else
      match run? bracketed cursor.rest with
      | none => none
      | some [] => some ⟨text, cursor, gap.broken⟩
      | some run =>
        let text := text ++ gap.text ++ String.ofList run
        let cursor := cursor.skip run.length
        if !cursor.seesAny isSpace then some ⟨text, cursor, false⟩
        else
          match Gap.extend? least cursor.rest.length Gap.none cursor with
          | none => none
          | some (gap, cursor) =>
            if !bracketed && cursor.column < least then some ⟨text, cursor, gap.broken⟩
            else continue? bracketed least fuel text gap cursor

def read? (bracketed : Bool) (least : Nat) (cursor : Cursor) : Option Reading :=
  continue? bracketed least (cursor.rest.length + 1) "" Gap.none cursor

end ManifestTree.Yaml.Plain
