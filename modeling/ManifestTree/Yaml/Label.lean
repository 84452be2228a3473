import ManifestTree.Number.Digits
import ManifestTree.Yaml.Cursor
import ManifestTree.Yaml.Token

/-!
# Anchors, tags and directives

The short words that stand in front of a node or of a document. An octet of a tag that is written
with a percent sign counts as the character of its number.
-/

namespace ManifestTree.Yaml.Label

/-- Characters that may follow the name of an anchor besides spaces. -/
def closesName (c : Char) : Bool := "?:,]\x7d%@\x60".toList.contains c

def name (cursor : Cursor) : String × Cursor :=
  let chars := cursor.rest.takeWhile isNameChar
  (String.ofList chars, cursor.skip chars.length)

def anchor? (cursor : Cursor) : Option (String × Cursor) :=
  let (name, behind) := name cursor
  if !name.isEmpty && (endsWord behind.rest || behind.seesAny closesName) then some (name, behind)
  else none

def octet? : List Char → Option Nat
  | '%' :: rest => Digits.fixed? 16 2 rest
  | _ => none

/-- How many octets a character has by its first octet. -/
def octetCount? (first : Nat) : Option Nat :=
  if first < 0x80 then some 1
  else if first / 0x20 = 6 then some 2
  else if first / 0x10 = 14 then some 3
  else if first / 0x08 = 30 then some 4
  else none

def furtherOctets? : Nat → List Char → Option (List Nat)
  | 0, _ => some []
  | count + 1, cs => do
    let octet ← octet? cs
    if octet / 0x40 = 2 then
      let others ← furtherOctets? count (cs.drop 3)
      pure (octet :: others)
    else none

def octets? (cs : List Char) : Option (List Nat) := do
  let first ← octet? cs
  let count ← octetCount? first
  let others ← furtherOctets? (count - 1) (cs.drop 3)
  pure (first :: others)

def tagText? (inBrackets : Bool) : Nat → String → Cursor → Option (String × Cursor)
  | 0, text, cursor => some (text, cursor)
  | fuel + 1, text, cursor =>
    match cursor.rest with
    | [] => some (text, cursor)
    | c :: _ =>
      if c = '%' then
        match octets? cursor.rest with
        | none => none
        | some octets =>
          tagText? inBrackets fuel (text ++ String.ofList (octets.map Char.ofNat))
            (cursor.skip (3 * octets.length))
      else if isTagChar inBrackets c then tagText? inBrackets fuel (text.push c) (cursor.skip 1)
      else some (text, cursor)

def tagWord? (inBrackets : Bool) (cursor : Cursor) : Option (String × Cursor) := do
  let (text, behind) ← tagText? inBrackets cursor.rest.length "" cursor
  if text.isEmpty then none else pure (text, behind)

/-- An exclamation mark, a name and perhaps another exclamation mark. -/
def handle? (cursor : Cursor) : Option (String × Cursor) :=
  if cursor.sees '!' then
    let (name, behind) := name (cursor.skip 1)
    some (if behind.sees '!' then ("!" ++ name ++ "!", behind.skip 1) else ("!" ++ name, behind))
  else none

/-- A tag without what must follow it: between angle brackets, behind a handle, or local. A lone
exclamation mark has no handle and is its own suffix. -/
def tagParts? (cursor : Cursor) : Option (String × String × Cursor) := do
  if cursor.rest.take 2 = ['!', '<'] then
    let (suffix, behind) ← tagWord? true (cursor.skip 2)
    if behind.sees '>' then pure ("", suffix, behind.skip 1) else none
  else
    let (handle, behind) ← handle? cursor
    if handle.length > 1 ∧ handle.endsWith "!" then
      let (suffix, behind) ← tagWord? false behind
      pure (handle, suffix, behind)
    else
      let start := String.ofList (handle.toList.drop 1)
      let (suffix, behind) ← tagText? false behind.rest.length start behind
      pure (if suffix.isEmpty then ("", "!", behind) else ("!", suffix, behind))

/-- A tag; a space follows it, or a comma in brackets. -/
def tag? (bracketed : Bool) (cursor : Cursor) : Option (Token × Cursor) := do
  let (handle, suffix, behind) ← tagParts? cursor
  if endsWord behind.rest || (bracketed && behind.sees ',') then pure (.tag handle suffix, behind)
  else none

def versionNumber? (cursor : Cursor) : Option (Nat × Cursor) :=
  let digits := cursor.rest.takeWhile Char.isDigit
  if digits.length ≤ 9 then
    (Digits.natural? 10 digits).map fun number ↦ (number, cursor.skip digits.length)
  else none

/-- The version of the notation: 1.1 and 1.2 are supported. -/
def version? (cursor : Cursor) : Option (Token × Cursor) := do
  let (major, behind) ← versionNumber? cursor.skipBlanks
  if !behind.sees '.' then none
  let (minor, behind) ← versionNumber? (behind.skip 1)
  pure (.version (major == 1 && (minor == 1 || minor == 2)), behind)

def handleMeaning? (cursor : Cursor) : Option (Token × Cursor) := do
  let (handle, behind) ← handle? cursor.skipBlanks
  if handle ≠ "!" ∧ !handle.endsWith "!" then none
  if !behind.seesAny isBlank then none
  let (expansion, behind) ← tagWord? true behind.skipBlanks
  if endsWord behind.rest then pure (.handle handle expansion, behind) else none

def directive? (cursor : Cursor) : Option (Token × Cursor) := do
  let (word, behind) := name cursor
  if !endsWord behind.rest then none
  let (token, behind) ← match word with
    | "YAML" => version? behind
    | "TAG" => handleMeaning? behind
    | _ => none
  let behind ← behind.finishLine?
  pure (token, behind)

end ManifestTree.Yaml.Label
