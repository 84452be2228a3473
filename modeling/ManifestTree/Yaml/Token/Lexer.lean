import ManifestTree.Yaml.BlockText
import ManifestTree.Yaml.Label
import ManifestTree.Yaml.Plain
import ManifestTree.Yaml.Quoted

/-!
# Tokens of a text

The tokens of a text in order. That a node is the key of a mapping shows only at the colon behind
it; the last place where a key may have begun is therefore remembered for every level of brackets,
and the tokens for the key are put in there later. Such a key lies on one line and has at most 1024
characters.
-/

namespace ManifestTree.Yaml

/-- A place where a key may have begun. -/
structure Candidate where
  /-- A key must have begun here: the block goes on with nothing else. -/
  isRequired : Bool
  position : Nat
  index : Nat
  line : Nat
  column : Nat
  deriving Inhabited

structure Lexer where
  cursor : Cursor
  tokens : List Token
  count : Nat
  candidate : Option Candidate
  /-- The same for the enclosing levels of brackets, the innermost first. -/
  enclosing : List (Option Candidate)
  /-- Content of the innermost block starts at this column or later; zero outside all blocks. -/
  least : Nat
  blocks : List Nat
  allowsKey : Bool
  deriving Inhabited

namespace Lexer

def start (text : List Char) : Lexer := ⟨Cursor.start text, [], 0, none, [], 0, [], true⟩

def isBracketed (lexer : Lexer) : Bool := !lexer.enclosing.isEmpty

def emit (token : Token) (lexer : Lexer) : Lexer :=
  { lexer with tokens := token :: lexer.tokens, count := lexer.count + 1 }

/-- A token put in behind the first `position` tokens. -/
def emitAt (position : Nat) (token : Token) (lexer : Lexer) : Lexer :=
  { lexer with
    tokens := lexer.tokens.insertIdx (lexer.count - position) token
    count := lexer.count + 1 }

/-- A token added, and the place moved behind some characters. -/
def consume (token : Token) (count : Nat) (lexer : Lexer) : Lexer :=
  { lexer.emit token with cursor := lexer.cursor.skip count }

/-- Blocks whose content would start behind a column are closed. -/
def closeBlocks (least : Nat) : List Nat → Lexer → Lexer
  | [], lexer => lexer
  | outer :: blocks, lexer =>
    if lexer.least ≤ least then lexer
    else closeBlocks least blocks { lexer.emit .blockEnd with least := outer, blocks := blocks }

/-- Outside brackets, the blocks are closed whose content would start behind a column. -/
def unindent (least : Nat) (lexer : Lexer) : Lexer :=
  if lexer.isBracketed then lexer else closeBlocks least lexer.blocks lexer

/-- Outside brackets, a block is opened unless one of this column is open. -/
def indent (column position : Nat) (token : Token) (lexer : Lexer) : Lexer :=
  if lexer.isBracketed || column < lexer.least then lexer
  else
    { lexer.emitAt position token with
      least := column + 1
      blocks := lexer.least :: lexer.blocks }

/-- Gives up the place where a key may have begun, unless a key is required there. -/
def dropCandidate? (lexer : Lexer) : Option Lexer :=
  if lexer.candidate.any Candidate.isRequired then none
  else some { lexer with candidate := none }

def noteCandidate? (lexer : Lexer) : Option Lexer :=
  if lexer.allowsKey then do
    let cursor := lexer.cursor
    let isRequired := !lexer.isBracketed && lexer.least == cursor.column + 1
    let lexer ← lexer.dropCandidate?
    pure { lexer with
      candidate := some ⟨isRequired, lexer.count, cursor.index, cursor.line, cursor.column⟩ }
  else some lexer

/-- A key that begins at the candidate can no longer end at the place reached. -/
def Candidate.isStale (cursor : Cursor) (candidate : Candidate) : Bool :=
  candidate.line < cursor.line || candidate.index + 1024 < cursor.index

/-- A candidate that is not too far behind; nothing if a required one is. -/
def fresh? (cursor : Cursor) : Option Candidate → Option (Option Candidate)
  | none => some none
  | some candidate =>
    if !Candidate.isStale cursor candidate then some (some candidate)
    else if candidate.isRequired then none
    else some none

def dropStale? (lexer : Lexer) : Option Lexer := do
  let candidate ← fresh? lexer.cursor lexer.candidate
  let enclosing ← lexer.enclosing.mapM (fresh? lexer.cursor)
  pure { lexer with candidate := candidate, enclosing := enclosing }

/-- The place moved over spaces and comments; a tab counts as one only where no key may begin. -/
def skipSpaces : Nat → Lexer → Lexer
  | 0, lexer => lexer
  | fuel + 1, lexer =>
    let isGap := fun c ↦ c == ' ' || ((lexer.isBracketed || !lexer.allowsKey) && c == '\t')
    let cursor := (lexer.cursor.skipWhile isGap).skipComment
    if cursor.seesAny isBreak then
      skipSpaces fuel { lexer with
        cursor := cursor.lineBreak.2
        allowsKey := lexer.allowsKey || !lexer.isBracketed }
    else { lexer with cursor := cursor }

/-- A byte order mark in front of all else is skipped. -/
def skipOrderMark (lexer : Lexer) : Lexer :=
  if lexer.cursor.sees '\ufeff' then { lexer with cursor := lexer.cursor.skip 1 } else lexer

/-! ## One token -/

/-- Before a mark of the document level, all blocks are closed. -/
def leaveBlocks? (lexer : Lexer) : Option Lexer := do
  let lexer ← (lexer.unindent 0).dropCandidate?
  pure { lexer with allowsKey := false }

def directive? (lexer : Lexer) : Option Lexer := do
  let lexer ← lexer.leaveBlocks?
  let (token, cursor) ← Label.directive? (lexer.cursor.skip 1)
  pure { lexer.emit token with cursor := cursor }

def documentMark? (token : Token) (lexer : Lexer) : Option Lexer := do
  let lexer ← lexer.leaveBlocks?
  pure (lexer.consume token 3)

def openBracket? (token : Token) (lexer : Lexer) : Option Lexer := do
  let lexer ← lexer.noteCandidate?
  pure { lexer.consume token 1 with
    candidate := none
    enclosing := lexer.candidate :: lexer.enclosing
    allowsKey := true }

def closeBracket? (token : Token) (lexer : Lexer) : Option Lexer := do
  let lexer ← lexer.dropCandidate?
  let lexer := { lexer.consume token 1 with allowsKey := false }
  match lexer.enclosing with
  | [] => pure lexer
  | candidate :: enclosing => pure { lexer with candidate := candidate, enclosing := enclosing }

def comma? (lexer : Lexer) : Option Lexer := do
  let lexer ← lexer.dropCandidate?
  pure { lexer.consume .comma 1 with allowsKey := true }

/-- Outside brackets, a block of a kind begins here or goes on, where a key may begin. -/
def enterBlock? (token : Token) (lexer : Lexer) : Option Lexer :=
  if lexer.isBracketed then some lexer
  else if lexer.allowsKey then some (lexer.indent lexer.cursor.column lexer.count token)
  else none

def item? (lexer : Lexer) : Option Lexer := do
  let lexer ← lexer.enterBlock? .blockSequence
  let lexer ← lexer.dropCandidate?
  pure { lexer.consume .item 1 with allowsKey := true }

def key? (lexer : Lexer) : Option Lexer := do
  let lexer ← lexer.enterBlock? .blockMapping
  let lexer ← lexer.dropCandidate?
  pure { lexer.consume .key 1 with allowsKey := !lexer.isBracketed }

def value? (lexer : Lexer) : Option Lexer :=
  match lexer.candidate with
  | some candidate =>
    let lexer := lexer.emitAt candidate.position .key
    let lexer := lexer.indent candidate.column candidate.position .blockMapping
    some { lexer.consume .value 1 with candidate := none, allowsKey := false }
  | none => do
    let lexer ← lexer.enterBlock? .blockMapping
    pure { lexer.consume .value 1 with allowsKey := !lexer.isBracketed }

def label? (token : String → Token) (lexer : Lexer) : Option Lexer := do
  let lexer ← lexer.noteCandidate?
  let (name, cursor) ← Label.anchor? (lexer.cursor.skip 1)
  pure { lexer.emit (token name) with cursor := cursor, allowsKey := false }

def tag? (lexer : Lexer) : Option Lexer := do
  let lexer ← lexer.noteCandidate?
  let (token, cursor) ← Label.tag? lexer.isBracketed lexer.cursor
  pure { lexer.emit token with cursor := cursor, allowsKey := false }

def blockText? (folded : Bool) (lexer : Lexer) : Option Lexer := do
  let lexer ← lexer.dropCandidate?
  let (text, cursor) ← BlockText.read? folded lexer.least (lexer.cursor.skip 1)
  pure { lexer.emit (.text (if folded then .folded else .literal) text) with
    cursor := cursor
    allowsKey := true }

def quotedText? (single : Bool) (lexer : Lexer) : Option Lexer := do
  let lexer ← lexer.noteCandidate?
  let (text, cursor) ← Quoted.read? single (lexer.cursor.skip 1)
  pure { lexer.emit (.text (if single then .single else .double) text) with
    cursor := cursor
    allowsKey := false }

/-- A plain text; a line break behind it lets a key begin. -/
def plainText? (lexer : Lexer) : Option Lexer := do
  let lexer ← lexer.noteCandidate?
  let reading ← Plain.read? lexer.isBracketed lexer.least lexer.cursor
  pure { lexer.emit (.text .plain reading.text) with
    cursor := reading.cursor
    allowsKey := reading.broken }

/-- A plain text starts with the character, which the given characters follow. -/
def startsPlain (bracketed : Bool) (c : Char) (rest : List Char) : Bool :=
  !(isSpace c || isIndicator c)
    || (c == '-' && !rest.head?.any isBlank)
    || (!bracketed && (c == '?' || c == ':') && !endsWord rest)

/-- Reads the token at the place reached, which is neither space nor end. -/
def token? (lexer : Lexer) (c : Char) (rest : List Char) : Option Lexer :=
  let bracketed := lexer.isBracketed
  if lexer.cursor.column = 0 ∧ c = '%' then lexer.directive?
  else if lexer.cursor.atDocumentMark then
    lexer.documentMark? (if c = '-' then .documentStart else .documentEnd)
  else if c = '[' then lexer.openBracket? .openSequence
  else if c = '\x7b' then lexer.openBracket? .openMapping
  else if c = ']' then lexer.closeBracket? .closeSequence
  else if c = '\x7d' then lexer.closeBracket? .closeMapping
  else if c = ',' then lexer.comma?
  else if c == '-' && endsWord rest then lexer.item?
  else if c == '?' && (bracketed || endsWord rest) then lexer.key?
  else if c == ':' && (bracketed || endsWord rest) then lexer.value?
  else if c = '*' then lexer.label? .reference
  else if c = '&' then lexer.label? .anchor
  else if c = '!' then lexer.tag?
  else if c == '|' && !bracketed then lexer.blockText? false
  else if c == '>' && !bracketed then lexer.blockText? true
  else if c = '\'' then lexer.quotedText? true
  else if c = '"' then lexer.quotedText? false
  else if startsPlain bracketed c rest then lexer.plainText?
  else none

def finish? (lexer : Lexer) : Option (List Token) := do
  let lexer ← (lexer.unindent 0).dropCandidate?
  pure lexer.tokens.reverse

def run? : Nat → Lexer → Option (List Token)
  | 0, _ => none
  | fuel + 1, lexer => do
    let lexer ← (skipSpaces (lexer.cursor.rest.length + 1) lexer).dropStale?
    let lexer := lexer.unindent (lexer.cursor.column + 1)
    match lexer.cursor.rest with
    | [] => lexer.finish?
    | c :: rest =>
      let lexer ← lexer.token? c rest
      run? fuel lexer

end Lexer

def tokens? (text : String) : Option (List Token) :=
  let cs := text.toList
  if cs.all isAllowed then Lexer.run? (cs.length + 2) (Lexer.start cs).skipOrderMark else none

end ManifestTree.Yaml
