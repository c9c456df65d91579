import TypedLiterals.Graphql.BlockString

/-!
The normal form of a GraphQL text: its tokens with block strings re-printed, written without ignored
characters except for one space between two tokens that would otherwise be read as one.
-/

namespace TypedLiterals.Graphql

/-- A token as it stands in a normal form. -/
def Token.printed (token : Token) : List Char :=
  BlockString.reprint token.text

/-- Whether two tokens in a row need a space between them. -/
def needsSpace (before after : Token.Kind) : Bool :=
  before != .punctuator && after != .punctuator

/-- Tokens after one of the given kind, written as closely as they may stand. -/
def printAfter (before : Token.Kind) : List Token → List Char
  | [] => []
  | token :: rest =>
    (if needsSpace before token.kind then [' '] else []) ++ token.printed ++
      printAfter token.kind rest

/-- Tokens written as closely as they may stand. The start of a text separates like a punctuator. -/
def print (list : List Token) : List Char :=
  printAfter .punctuator list

/-- The normal form of a text. -/
def normalize (text : String) : String :=
  String.ofList (print (tokens text.toList))

end TypedLiterals.Graphql
