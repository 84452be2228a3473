import ManifestTree.Yaml.Tree

/-!
# Documents of tokens

How tokens form nodes and documents. The first document needs no mark in front of it, every further
one does. In brackets, a single key with its value is a mapping of its own.
-/

namespace ManifestTree.Yaml.Grammar

abbrev Handles := List (String × String)

def standardHandles : Handles := [("!", "!"), ("!!", "tag:yaml.org,2002:")]

def tagOf? (handles : Handles) (handle suffix : String) : Option String :=
  if handle.isEmpty then some suffix
  else (handles.lookup handle).map fun expansion ↦ expansion ++ suffix

/-- Where a node stands, which decides about the blocks it may be. -/
inductive Place where
  | bracketed
  | block
  /-- Key or value of a mapping in block form: also items at the mapping's own indentation. -/
  | member
  deriving DecidableEq, Repr

/-- Anchor and tag in front of a node, in either order. -/
def mark? (handles : Handles) : List Token → Option (Mark String × List Token)
  | .anchor name :: .tag handle suffix :: rest =>
    (tagOf? handles handle suffix).map fun tag ↦ (⟨some name, some tag⟩, rest)
  | .tag handle suffix :: .anchor name :: rest =>
    (tagOf? handles handle suffix).map fun tag ↦ (⟨some name, some tag⟩, rest)
  | .anchor name :: rest => some (⟨some name, none⟩, rest)
  | .tag handle suffix :: rest =>
    (tagOf? handles handle suffix).map fun tag ↦ (⟨none, some tag⟩, rest)
  | tokens => some (Tree.unmarked, tokens)

/-- A text with its mark; the lone exclamation mark says nothing about a text. -/
def markedText (mark : Mark String) (style : Style) (text : String) : Tree String :=
  .text (if mark.tag = some "!" then { mark with tag := none } else mark) style text

def seesAny (tokens expected : List Token) : Bool :=
  tokens.head?.any expected.contains

/-- A node without content, which needs an anchor or a tag. -/
def emptyNode? (mark : Mark String) (rest : List Token) : Option (Tree String × List Token) :=
  if mark.anchor.isSome || mark.tag.isSome then some (.text mark .plain "", rest) else none

mutual

def node? (handles : Handles) (place : Place) :
    Nat → List Token → Option (Tree String × List Token)
  | 0, _ => none
  | fuel + 1, tokens =>
    match tokens with
    | .reference name :: rest => some (.reference name, rest)
    | tokens => do
      let (mark, rest) ← mark? handles tokens
      match rest with
      | .text style text :: rest => pure (markedText mark style text, rest)
      | .openSequence :: rest =>
        let (items, rest) ← bracketItems? handles fuel true rest
        pure (.sequence mark items, rest)
      | .openMapping :: rest =>
        let (members, rest) ← bracketMembers? handles fuel true rest
        pure (.mapping mark members, rest)
      | .blockSequence :: rest' =>
        if place = .bracketed then emptyNode? mark rest
        else
          let (items, rest) ← blockItems? handles fuel rest'
          pure (.sequence mark items, rest)
      | .blockMapping :: rest' =>
        if place = .bracketed then emptyNode? mark rest
        else
          let (members, rest) ← blockMembers? handles fuel rest'
          pure (.mapping mark members, rest)
      | .item :: _ =>
        if place = .member then
          let (items, rest) ← levelItems? handles fuel rest
          pure (.sequence mark items, rest)
        else emptyNode? mark rest
      | rest => emptyNode? mark rest

/-- A node, or an empty one where one of the given tokens follows. -/
def nodeUnless? (handles : Handles) (place : Place) (fuel : Nat) (stops tokens : List Token) :
    Option (Tree String × List Token) :=
  match fuel with
  | 0 => none
  | fuel + 1 =>
    if seesAny tokens stops then some (Tree.empty, tokens) else node? handles place fuel tokens

def blockItems? (handles : Handles) :
    Nat → List Token → Option (List (Tree String) × List Token)
  | 0, _ => none
  | fuel + 1, tokens =>
    match tokens with
    | .item :: rest => do
      let (item, rest) ← nodeUnless? handles .block fuel [.item, .blockEnd] rest
      let (items, rest) ← blockItems? handles fuel rest
      pure (item :: items, rest)
    | .blockEnd :: rest => some ([], rest)
    | _ => none

/-- Items at the indentation of the mapping around them. -/
def levelItems? (handles : Handles) :
    Nat → List Token → Option (List (Tree String) × List Token)
  | 0, _ => none
  | fuel + 1, tokens =>
    match tokens with
    | .item :: rest => do
      let (item, rest) ← nodeUnless? handles .block fuel [.item, .key, .value, .blockEnd] rest
      let (items, rest) ← levelItems? handles fuel rest
      pure (item :: items, rest)
    | rest => some ([], rest)

def blockMembers? (handles : Handles) :
    Nat → List Token → Option (List (Tree String × Tree String) × List Token)
  | 0, _ => none
  | fuel + 1, tokens =>
    match tokens with
    | .key :: rest => do
      let (key, rest) ← nodeUnless? handles .member fuel [.key, .value, .blockEnd] rest
      let (value, rest) ← valueUnless? handles .member fuel [.key, .value, .blockEnd] rest
      let (members, rest) ← blockMembers? handles fuel rest
      pure ((key, value) :: members, rest)
    | .blockEnd :: rest => some ([], rest)
    | _ => none

def valueUnless? (handles : Handles) (place : Place) (fuel : Nat) (stops tokens : List Token) :
    Option (Tree String × List Token) :=
  match fuel with
  | 0 => none
  | fuel + 1 =>
    match tokens with
    | .value :: rest => nodeUnless? handles place fuel stops rest
    | rest => some (Tree.empty, rest)

/-- The items in brackets and the closing one; a comma stands before every item but the first. -/
def bracketItems? (handles : Handles) :
    Nat → Bool → List Token → Option (List (Tree String) × List Token)
  | 0, _, _ => none
  | fuel + 1, isFirst, tokens =>
    match tokens with
    | .closeSequence :: rest => some ([], rest)
    | tokens => do
      let tokens ← if isFirst then some tokens else match tokens with
        | .comma :: rest => some rest
        | _ => none
      match tokens with
      | .key :: rest =>
        let (member, rest) ← lonePair? handles fuel rest
        let (items, rest) ← bracketItems? handles fuel false rest
        pure (.mapping Tree.unmarked [member] :: items, rest)
      | .closeSequence :: rest => pure ([], rest)
      | tokens =>
        let (item, rest) ← node? handles .bracketed fuel tokens
        let (items, rest) ← bracketItems? handles fuel false rest
        pure (item :: items, rest)

/-- A key and its value among the items in brackets; a token that stands in place of the key is
passed over. -/
def lonePair? (handles : Handles) (fuel : Nat) (tokens : List Token) :
    Option ((Tree String × Tree String) × List Token) :=
  match fuel with
  | 0 => none
  | fuel + 1 => do
    let (key, rest) ←
      if seesAny tokens [.value, .comma, .closeSequence] then some (Tree.empty, tokens.drop 1)
      else node? handles .bracketed fuel tokens
    let (value, rest) ← valueUnless? handles .bracketed fuel [.comma, .closeSequence] rest
    pure ((key, value), rest)

/-- The members in braces and the closing one; a comma stands before every member but the first. -/
def bracketMembers? (handles : Handles) : Nat → Bool → List Token →
    Option (List (Tree String × Tree String) × List Token)
  | 0, _, _ => none
  | fuel + 1, isFirst, tokens =>
    match tokens with
    | .closeMapping :: rest => some ([], rest)
    | tokens => do
      let tokens ← if isFirst then some tokens else match tokens with
        | .comma :: rest => some rest
        | _ => none
      match tokens with
      | .key :: rest =>
        let (key, rest) ← nodeUnless? handles .bracketed fuel [.value, .comma, .closeMapping] rest
        let (value, rest) ← valueUnless? handles .bracketed fuel [.comma, .closeMapping] rest
        let (members, rest) ← bracketMembers? handles fuel false rest
        pure ((key, value) :: members, rest)
      | .closeMapping :: rest => pure ([], rest)
      | tokens =>
        let (key, rest) ← node? handles .bracketed fuel tokens
        let (members, rest) ← bracketMembers? handles fuel false rest
        pure ((key, Tree.empty) :: members, rest)

end

/-! ## Documents -/

/-- The directives in front of a document: one version at most, and no handle twice. -/
def directives? (versioned : Bool) (handles : Handles) :
    List Token → Option (Handles × List Token)
  | .version supported :: rest =>
    if supported && !versioned then directives? true handles rest else none
  | .handle name expansion :: rest =>
    if (handles.lookup name).isSome then none
    else directives? versioned (handles ++ [(name, expansion)]) rest
  | rest => some (handles, rest)

def isBetweenDocuments : Token → Bool
  | .version _ => true
  | .handle .. => true
  | .documentStart => true
  | .documentEnd => true
  | _ => false

/-- The node behind the mark of a document, which may be missing. -/
def content? (handles : Handles) (tokens : List Token) : Option (Tree String × List Token) :=
  if tokens.isEmpty || tokens.head?.any isBetweenDocuments then some (Tree.empty, tokens)
  else node? handles .block (4 * tokens.length + 4) tokens

/-- A document that begins with directives or its mark. -/
def markedDocument? (tokens : List Token) : Option (Tree String × List Token) := do
  let (handles, rest) ← directives? false [] tokens
  match rest with
  | .documentStart :: rest => content? (handles ++ standardHandles) rest
  | _ => none

def documents? : Nat → List Token → Option (List (Tree String))
  | 0, _ => none
  | fuel + 1, tokens =>
    match tokens.dropWhile (· == .documentEnd) with
    | [] => some []
    | tokens => do
      let (document, rest) ← markedDocument? tokens
      let documents ← documents? fuel rest
      pure (document :: documents)

def bareDocument? (tokens : List Token) : Option (Tree String × List Token) :=
  node? standardHandles .block (4 * tokens.length + 4) tokens

def stream? (tokens : List Token) : Option (List (Tree String)) :=
  let fuel := tokens.length + 1
  match tokens with
  | [] => some []
  | first :: _ =>
    if isBetweenDocuments first && first != .documentEnd then documents? fuel tokens
    else do
      let (document, rest) ← bareDocument? tokens
      let documents ← documents? fuel rest
      pure (document :: documents)

end ManifestTree.Yaml.Grammar
