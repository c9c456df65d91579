import TypedLiterals.Config
import TypedLiterals.Text.Character

/-!
Requests to a generation engine, and the command line by which one is started.
-/

namespace TypedLiterals

/-- All that an engine needs to generate the artifacts of one literal. -/
structure Request where
  source : String
  literal : String
  schema : List Path
  module : Path
  declaration : Path
deriving DecidableEq, Repr

namespace Request

/-- A text with every occurrence of a nonempty pattern replaced, from left to right. The first `skip`
characters belong to an occurrence. -/
def replaceFrom (pattern value : List Char) : (skip : Nat) → List Char → List Char
  | _, [] => []
  | skip + 1, _ :: rest => replaceFrom pattern value skip rest
  | 0, character :: rest =>
    if pattern.isPrefixOf (character :: rest) then
      value ++ replaceFrom pattern value (pattern.length - 1) rest
    else character :: replaceFrom pattern value 0 rest

/-- A text with every occurrence of a pattern replaced. -/
def replace (pattern value text : List Char) : List Char :=
  replaceFrom pattern value 0 text

/-- A placeholder is a name in braces. -/
def placeholder (name : String) : List Char :=
  '{' :: name.toList ++ ['}']

/-- The schema paths as one argument. -/
def schemaText (request : Request) : List Char :=
  List.intercalate [','] (request.schema.map (·.text.toList))

/-- The placeholders with their values, in the order in which they are replaced. -/
def placeholders (request : Request) : List (List Char × List Char) :=
  [(placeholder "schema", request.schemaText),
   (placeholder "module", request.module.text.toList),
   (placeholder "declaration", request.declaration.text.toList),
   (placeholder "source", request.source.toList)]

/-- An argument with its placeholders replaced one after another. -/
def fill (request : Request) (arg : String) : String :=
  String.ofList (request.placeholders.foldl
    (fun text pair => replace pair.1 pair.2 text) arg.toList)

/-- The arguments of the engine for a request. -/
def arguments (request : Request) (args : List String) : List String :=
  args.map request.fill

end Request

end TypedLiterals
