/-!
# Tokens of document streams

The words of the notation. Blocks, which a text shows by indentation, have tokens for their start
and end, and the key of a mapping is announced by a token in front of it.
-/

namespace ManifestTree.Yaml

inductive Style where
  | plain
  | single
  | double
  | literal
  | folded
  deriving DecidableEq, Repr, Inhabited

inductive Token where
  | version (supported : Bool)
  | handle (name expansion : String)
  | documentStart
  | documentEnd
  | blockSequence
  | blockMapping
  | blockEnd
  | openSequence
  | closeSequence
  | openMapping
  | closeMapping
  | item
  | comma
  | key
  | value
  | reference (name : String)
  | anchor (name : String)
  | tag (handle suffix : String)
  | text (style : Style) (text : String)
  deriving DecidableEq, Repr, Inhabited

end ManifestTree.Yaml
