import ManifestTree.Toml.Quoted
import ManifestTree.Toml.Table
import ManifestTree.Toml.Word

/-!
# Reading table files

A file is a sequence of lines: values under dotted keys, and headings that say which table the
values below belong to. Lists may go on over several lines, tables between braces only in the later
edition. Keys have at most 79 parts, and at most 79 lists and tables lie inside one another.
-/

namespace ManifestTree.Toml.Reader

open Quoted (isBlank afterBreak? isAllowed)

def skipBlanks (cs : List Char) : List Char := cs.dropWhile isBlank

/-- The text behind a comment, if one starts here and holds no control. -/
def afterComment? : List Char → Option (List Char)
  | '#' :: rest =>
    let rest := rest.dropWhile isAllowed
    if rest.isEmpty || (afterBreak? rest).isSome then some rest else none
  | rest => some rest

/-- The text behind the rest of a line that may hold a comment; the text may end there. -/
def finishLine? (cs : List Char) : Option (List Char) := do
  let rest ← afterComment? (skipBlanks cs)
  if rest.isEmpty then pure [] else afterBreak? rest

/-- The text behind blanks, line breaks and comments. -/
def skipLines? : Nat → List Char → Option (List Char)
  | 0, _ => none
  | fuel + 1, cs => do
    let rest ← afterComment? (skipBlanks cs)
    match afterBreak? rest with
    | some rest => skipLines? fuel rest
    | none => pure rest

def isKeyChar (c : Char) : Bool := c.isAlphanum || c == '_' || c == '-'

def keyPart? (edition : Edition) : List Char → Option (String × List Char)
  | [] => none
  | c :: rest =>
    if c == '"' || c == '\'' then Quoted.short? edition c rest
    else if isKeyChar c then
      some (String.ofList ((c :: rest).takeWhile isKeyChar), rest.dropWhile isKeyChar)
    else none

/-- The parts of a key, with blanks around the points. -/
def keyParts? (edition : Edition) : Nat → List Char → Option (List String × List Char)
  | 0, _ => none
  | fuel + 1, cs => do
    let (part, rest) ← keyPart? edition (skipBlanks cs)
    match skipBlanks rest with
    | '.' :: rest =>
      let (parts, rest) ← keyParts? edition fuel rest
      pure (part :: parts, rest)
    | rest => pure ([part], rest)

/-- How many parts a key may have, and how deep values may lie inside one another, plus one. -/
def limit : Nat := 80

/-- A key, as the parts but the last and the last one. -/
def key? (edition : Edition) (cs : List Char) : Option (List String × String × List Char) := do
  let (parts, rest) ← keyParts? edition (limit - 1) cs
  let last ← parts.getLast?
  pure (parts.dropLast, last, rest)

def isWordChar (c : Char) : Bool := c.isAlphanum || "+-_.:".toList.contains c

/-- The word at the front; a blank may stand between a date and a time. -/
def word (cs : List Char) : List Char × List Char :=
  let front := cs.takeWhile isWordChar
  let rest := cs.dropWhile isWordChar
  match rest with
  | ' ' :: next :: _ =>
    if Word.afterDate? front == some [] && next.isDigit then
      let time := (rest.drop 1).takeWhile isWordChar
      (front ++ ' ' :: time, (rest.drop 1).dropWhile isWordChar)
    else (front, rest)
  | _ => (front, rest)

/-- Blanks inside a table between braces: line breaks and comments count in the later edition. -/
def skipInside? (edition : Edition) (cs : List Char) : Option (List Char) :=
  if edition = .second then skipLines? (cs.length + 1) cs else some (skipBlanks cs)

mutual

/-- A value, with the lists and tables that it may still open. -/
def value? (edition : Edition) : Nat → Nat → List Char → Option (Value × List Char)
  | 0, _, _ => none
  | fuel + 1, depth, cs =>
    match cs with
    | [] => none
    | c :: rest =>
      if c == '"' || c == '\'' then
        (Quoted.read? edition c rest).map fun (text, rest) ↦ (.text text, rest)
      else if c = '[' then
        if depth ≤ 1 then none
        else (items? edition fuel (depth - 1) rest).map fun (items, rest) ↦ (.list items, rest)
      else if c = '\x7b' then
        if depth ≤ 1 then none
        else do
          let (assignments, rest) ← members? edition fuel (depth - 1) true rest
          let entries ← assignAll? [] assignments
          pure (.table (settleMembers entries), rest)
      else
        let (word, rest) := word cs
        (Word.value? edition word).map fun value ↦ (value, rest)

def items? (edition : Edition) : Nat → Nat → List Char → Option (List Value × List Char)
  | 0, _, _ => none
  | fuel + 1, depth, cs => do
    match ← skipLines? (cs.length + 1) cs with
    | ']' :: rest => pure ([], rest)
    | rest =>
      let (item, rest) ← value? edition fuel depth rest
      match ← skipLines? (rest.length + 1) rest with
      | ',' :: rest =>
        let (items, rest) ← items? edition fuel depth rest
        pure (item :: items, rest)
      | ']' :: rest => pure ([item], rest)
      | _ => none

/-- The members of a table between braces and the closing one; in the first edition no comma stands
in front of it. -/
def members? (edition : Edition) :
    Nat → Nat → Bool → List Char → Option (List Assignment × List Char)
  | 0, _, _, _ => none
  | fuel + 1, depth, mayClose, cs => do
    match ← skipInside? edition cs with
    | '\x7d' :: rest => if mayClose then pure ([], rest) else none
    | rest =>
      let (way, key, rest) ← key? edition rest
      match rest with
      | '=' :: rest =>
        let (value, rest) ← value? edition fuel depth (skipBlanks rest)
        match ← skipInside? edition rest with
        | ',' :: rest =>
          let (members, rest) ← members? edition fuel depth (edition == .second) rest
          pure (⟨way, key, value⟩ :: members, rest)
        | '\x7d' :: rest => pure ([⟨way, key, value⟩], rest)
        | _ => none
      | _ => none

end

def assignment? (edition : Edition) (cs : List Char) : Option (Assignment × List Char) := do
  let (way, key, rest) ← key? edition cs
  match rest with
  | '=' :: rest =>
    let (value, rest) ← value? edition (2 * rest.length + 2) limit (skipBlanks rest)
    let rest ← finishLine? rest
    pure (⟨way, key, value⟩, rest)
  | _ => none

def assignments? (edition : Edition) : Nat → List Char → Option (List Assignment × List Char)
  | 0, _ => none
  | fuel + 1, cs => do
    match ← skipLines? (cs.length + 1) cs with
    | [] => pure ([], [])
    | '[' :: rest => pure ([], '[' :: rest)
    | rest =>
      let (assignment, rest) ← assignment? edition rest
      let (assignments, rest) ← assignments? edition fuel rest
      pure (assignment :: assignments, rest)

/-- A heading behind its first bracket: its parts, and whether it adds to a list. -/
def heading? (edition : Edition) (cs : List Char) : Option (List String × Bool × List Char) := do
  let isElement := cs.head? == some '['
  let (parts, rest) ← keyParts? edition (limit - 1) (if isElement then cs.drop 1 else cs)
  match isElement, rest with
  | true, ']' :: ']' :: rest => pure (parts, true, ← finishLine? rest)
  | false, ']' :: rest => pure (parts, false, ← finishLine? rest)
  | _, _ => none

def sections? (edition : Edition) : Nat → List Char → Option (List Section)
  | 0, _ => none
  | fuel + 1, cs =>
    match cs with
    | '[' :: rest => do
      let (way, isElement, rest) ← heading? edition rest
      let (assignments, rest) ← assignments? edition (rest.length + 1) rest
      let sections ← sections? edition fuel rest
      pure (⟨way, isElement, assignments⟩ :: sections)
    | _ => some []

end Reader

def members? (edition : Edition) (text : String) : Option (List (String × Value)) := do
  let cs := match text.toList with
    | '\ufeff' :: rest => rest
    | cs => cs
  let (assignments, rest) ← Reader.assignments? edition (cs.length + 1) cs
  let sections ← Reader.sections? edition (rest.length + 1) rest
  let entries ← assignAll? [] assignments
  let entries ← addSections? entries sections
  pure (settleMembers entries)

end ManifestTree.Toml
