/-!
# Characters of document streams

The classes of characters that the notation distinguishes: what may stand in a text at all, blanks,
line breaks, and the characters of names and tags.
-/

namespace ManifestTree.Yaml

/-- Characters that a text may hold: no controls but tab, line breaks and U+0085. -/
def isAllowed (c : Char) : Bool :=
  let n := c.toNat
  n == 0x09 || n == 0x0A || n == 0x0D || (0x20 ≤ n && n ≤ 0x7E) || n == 0x85
    || (0xA0 ≤ n && n ≤ 0xFFFD) || 0x10000 ≤ n

def isBlank (c : Char) : Bool := c == ' ' || c == '\t'

/-- Carriage return, line feed, next line, line separator and paragraph separator. -/
def isBreak (c : Char) : Bool :=
  c == '\r' || c == '\n' || c == '\u0085' || c == '\u2028' || c == '\u2029'

def isSpace (c : Char) : Bool := isBlank c || isBreak c

/-- The text is at its end, or goes on with a blank or a line break. -/
def endsWord : List Char → Bool
  | [] => true
  | c :: _ => isSpace c

/-- ASCII letters and digits, underscore and hyphen: the characters of names. -/
def isNameChar (c : Char) : Bool := c.isAlphanum || c == '_' || c == '-'

/-- Characters that close or separate items of a collection in brackets. -/
def isBracketed (c : Char) : Bool := ",[]\x7b\x7d".toList.contains c

def isIndicator (c : Char) : Bool := "-?:,[]\x7b\x7d#&*!|>'\"%@\x60".toList.contains c

/-- Characters of a tag, `inBrackets` those of one between angle brackets or in a directive. -/
def isTagChar (inBrackets : Bool) (c : Char) : Bool :=
  isNameChar c || ";/?:@&=+$.%!~*'()".toList.contains c || (inBrackets && ",[]".toList.contains c)

end ManifestTree.Yaml
