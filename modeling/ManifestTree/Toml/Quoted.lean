import ManifestTree.Number.Digits
import ManifestTree.Toml.Value

/-!
# Quoted texts in table files

Four kinds of quotes: double quotes with escapes or single quotes without any, each on one line or,
three at a time, over several. A line break right behind three opening quotes is dropped.
-/

namespace ManifestTree.Toml.Quoted

def isBlank (c : Char) : Bool := c == ' ' || c == '\t'

/-- The text behind a line feed, alone or with a carriage return in front of it. -/
def afterBreak? : List Char → Option (List Char)
  | '\n' :: rest => some rest
  | '\r' :: '\n' :: rest => some rest
  | _ => none

/-- Characters that may stand in a text or a comment: no controls but the tab. -/
def isAllowed (c : Char) : Bool := c == '\t' || (c.toNat ≥ 0x20 && c.toNat != 0x7F)

/-- The character that a letter behind a backslash stands for. -/
def letterEscape? (edition : Edition) : Char → Option Char
  | 'b' => some '\x08'
  | 't' => some '\t'
  | 'n' => some '\n'
  | 'f' => some '\x0c'
  | 'r' => some '\r'
  | '"' => some '"'
  | '\\' => some '\\'
  | 'e' => if edition = .second then some '\x1b' else none
  | _ => none

/-- How many hexadecimal digits follow a letter that announces a character by number. -/
def numericWidth? (edition : Edition) : Char → Option Nat
  | 'u' => some 4
  | 'U' => some 8
  | 'x' => if edition = .second then some 2 else none
  | _ => none

/-- The character of an escape behind its backslash, and what follows. -/
def escape? (edition : Edition) : List Char → Option (Char × List Char)
  | [] => none
  | letter :: rest =>
    match numericWidth? edition letter with
    | none => (letterEscape? edition letter).map fun c ↦ (c, rest)
    | some width => (Digits.character? width rest).map fun c ↦ (c, rest.drop width)

def basicBody? (edition : Edition) : Nat → String → List Char → Option (String × List Char)
  | 0, _, _ => none
  | _, _, [] => none
  | fuel + 1, text, c :: rest =>
    if c = '"' then some (text, rest)
    else if c = '\\' then
      match escape? edition rest with
      | some (escaped, rest) => basicBody? edition fuel (text.push escaped) rest
      | none => none
    else if isAllowed c then basicBody? edition fuel (text.push c) rest
    else none

def literalBody? : String → List Char → Option (String × List Char)
  | _, [] => none
  | text, c :: rest =>
    if c = '\'' then some (text, rest)
    else if isAllowed c then literalBody? (text.push c) rest
    else none

/-- What a run of quotes in a text over several lines means: fewer than three belong to the text,
and of more than three, up to two in front of the closing ones. -/
def closing (run : Nat) : Nat × Bool := if run < 3 then (run, false) else (min run 5 - 3, true)

def skipSpaces (cs : List Char) : List Char :=
  cs.dropWhile fun c ↦ isBlank c || c == '\n' || c == '\r'

/-- The text behind a backslash at the end of a line, the spaces after it left out. -/
def afterJoin? (cs : List Char) : Option (List Char) :=
  (afterBreak? (cs.dropWhile isBlank)).map skipSpaces

/-- The rest of a text over several lines between quotes of a kind, with escapes or without. -/
def longBody? (edition : Edition) (quote : Char) : Nat → String → List Char →
    Option (String × List Char)
  | 0, _, _ => none
  | _, _, [] => none
  | fuel + 1, text, c :: rest =>
    if c = quote then
      let run := ((c :: rest).takeWhile (· == quote)).length
      let (kept, closes) := closing run
      let text := text ++ String.ofList (List.replicate kept quote)
      let rest := (c :: rest).drop (if closes then kept + 3 else kept)
      if closes then some (text, rest) else longBody? edition quote fuel text rest
    else if c == '\\' && quote == '"' then
      match afterJoin? rest with
      | some rest => longBody? edition quote fuel text rest
      | none =>
        match escape? edition rest with
        | some (escaped, rest) => longBody? edition quote fuel (text.push escaped) rest
        | none => none
    else
      match afterBreak? (c :: rest) with
      | some rest => longBody? edition quote fuel (text.push '\n') rest
      | none => if isAllowed c then longBody? edition quote fuel (text.push c) rest else none

def short? (edition : Edition) (quote : Char) (cs : List Char) : Option (String × List Char) :=
  if quote = '"' then basicBody? edition (cs.length + 1) "" cs else literalBody? "" cs

/-- A text over several lines behind its opening quotes. -/
def long? (edition : Edition) (quote : Char) (cs : List Char) : Option (String × List Char) :=
  let cs := (afterBreak? cs).getD cs
  longBody? edition quote (cs.length + 1) "" cs

def read? (edition : Edition) (quote : Char) (cs : List Char) : Option (String × List Char) :=
  if cs.take 2 = [quote, quote] then long? edition quote (cs.drop 2) else short? edition quote cs

end ManifestTree.Toml.Quoted
