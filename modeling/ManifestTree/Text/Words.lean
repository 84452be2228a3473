import ManifestTree.Text.Alphanumeric
import ManifestTree.Text.LetterCase

/-!
# Words inside identifiers

A text is cut into words at every character that is neither letter nor digit, where an upper case
letter follows a lower case one, and before the last of several upper case letters when a lower case
letter follows it. Digits belong to the word that they follow. Joined by underscores, the words give
an identifier in lower or in upper case.
-/

namespace ManifestTree.Text

/-- The case of the last letter of the word at hand. -/
inductive WordCase where
  | start
  | lower
  | upper
  deriving DecidableEq, Repr

def WordCase.after (previous : WordCase) (c : Char) : WordCase :=
  if isLowercase c then .lower else if isUppercase c then .upper else previous

/-- The words of a run of letters and digits; `word` holds the characters of the current one in
reverse. -/
def caseWords (previous : WordCase) (word : List Char) : List Char → List (List Char)
  | [] => []
  | [c] => [(c :: word).reverse]
  | c :: next :: rest =>
    let now := previous.after c
    if now = .lower && isUppercase next then
      (c :: word).reverse :: caseWords .start [] (next :: rest)
    else if previous = .upper && isUppercase c && isLowercase next then
      word.reverse :: caseWords .start [c] (next :: rest)
    else caseWords now (c :: word) (next :: rest)

/-- The runs of letters and digits, some of them empty; `run` holds the current one in reverse. -/
def alphanumericRuns (run : List Char) : List Char → List (List Char)
  | [] => [run.reverse]
  | c :: rest =>
    if isAlphanumeric c then alphanumericRuns (c :: run) rest
    else run.reverse :: alphanumericRuns [] rest

def words (text : String) : List (List Char) :=
  (alphanumericRuns [] text.toList).flatMap (caseWords .start [])

/-- A word in lower case; a capital sigma at its end takes the final form. -/
def lowerWord : List Char → List Char
  | [] => []
  | ['Σ'] => ['ς']
  | c :: rest => toLowercase c ++ lowerWord rest

def upperWord (word : List Char) : List Char := word.flatMap toUppercase

def joinWords : List (List Char) → List Char
  | [] => []
  | [word] => word
  | word :: rest => word ++ '_' :: joinWords rest

/-- The words of a text in lower case, joined by underscores. -/
def snakeCase (text : String) : String :=
  String.ofList (joinWords ((words text).map lowerWord))

/-- The words of a text in upper case, joined by underscores. -/
def shoutyCase (text : String) : String :=
  String.ofList (joinWords ((words text).map upperWord))

end ManifestTree.Text
