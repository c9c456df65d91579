import TypedLiterals.Graphql.Token

/-!
Block strings, re-printed without the indentation they were written with.

The value of a block string is its lines with the common indentation and the blank lines at both ends
removed, joined by line feeds. A re-printed block string has that value, starts on a new line when its
own text would be taken for indentation, and keeps its last character away from the closing quotes.
-/

namespace TypedLiterals.Graphql.BlockString

/-- The lines of a text. A line ends with a line feed, a carriage return, or both in that order. -/
def lines : List Char → List (List Char)
  | [] => [[]]
  | '\r' :: '\n' :: rest => [] :: lines rest
  | character :: rest =>
    if isLineEnd character then [] :: lines rest
    else
      match lines rest with
      | [] => [[character]]
      | line :: later => (character :: line) :: later

def indentation (line : List Char) : Nat :=
  (line.takeWhile isBlankCharacter).length

def isBlank (line : List Char) : Bool :=
  line.all isBlankCharacter

/-- The least number of a list, zero for an empty one. -/
def least : List Nat → Nat
  | [] => 0
  | first :: rest => rest.foldl min first

/-- The least indentation of a line after the first that is not blank. -/
def commonIndentation (body : List Char) : Nat :=
  least ((((lines body).drop 1).filter (!isBlank ·)).map indentation)

/-- Every line but the first without its first `width` characters. -/
def dedent (width : Nat) : List (List Char) → List (List Char)
  | [] => []
  | first :: rest => first :: rest.map (List.drop width)

/-- Lines without the blank ones at both ends. -/
def trimBlankLines (texts : List (List Char)) : List (List Char) :=
  ((texts.dropWhile isBlank).reverse.dropWhile isBlank).reverse

/-- The value of a block string whose body is written as given. -/
def value (body : List Char) : List Char :=
  List.intercalate ['\n'] (trimBlankLines (dedent (commonIndentation body) (lines body)))

def tripleQuote : List Char := ['\x22', '\x22', '\x22']

def escapedTripleQuote : List Char := '\\' :: tripleQuote

/-- Whether closing quotes put right after this text would be read with it. -/
def needsLineBeforeQuotes (text : List Char) : Bool :=
  (['\x22'].isSuffixOf text && !escapedTripleQuote.isSuffixOf text) || ['\\'].isSuffixOf text

/-- A body with the given value, in the one form used for re-printing. -/
def printBody (text : List Char) : List Char :=
  (if 0 < commonIndentation text then ['\n'] else []) ++ text ++
    (if needsLineBeforeQuotes text then ['\n'] else [])

/-- The body of a token that opens and closes with three quotes. -/
def body? (token : List Char) : Option (List Char) :=
  if 6 ≤ token.length && tripleQuote.isPrefixOf token && tripleQuote.isSuffixOf token then
    some ((token.drop 3).take (token.length - 6))
  else none

/-- A token re-printed when it is a block string; any other token is kept. -/
def reprint (token : List Char) : List Char :=
  match body? token with
  | some body => tripleQuote ++ printBody (value body) ++ tripleQuote
  | none => token

end TypedLiterals.Graphql.BlockString
