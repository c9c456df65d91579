import TypedLiterals.Config
import TypedLiterals.Rewrite
import TypedLiterals.Syntax.Parser

/-!
Finding the literals of a source.

A literal call applies the local name of a configured function, imported from a configured module, to a
single template without substitutions. Names are matched as they are written; scopes are not looked at.
-/

namespace TypedLiterals

open Syntax

/-- Why a source could not be scanned. -/
inductive Scan.Error where
  | unsupportedLanguage (path : Path)
deriving DecidableEq, Repr

/-- The text shown when a source cannot be scanned. -/
def Scan.Error.message : Scan.Error → String
  | unsupportedLanguage path => s!"unsupported language for file: {path.text}"

namespace Scan

def isQuote (character : Char) : Bool :=
  character = '\x22' || character = '\x27'

/-- A text without the quotes at both ends. -/
def withoutQuotes (text : List Char) : List Char :=
  ((text.dropWhile isQuote).reverse.dropWhile isQuote).reverse

/-- The import statements of a program with the modules that they name. -/
def imports (text : List Char) (program : Tree) : List (Tree × String) :=
  program.children.filterMap fun statement =>
    if statement.kind = .importStatement then
      (statement.child? .source).map fun source =>
        (statement, String.ofList (withoutQuotes (source.textIn text)))
    else none

/-- What the parts of an import clause bind: the local names of literal functions, and the number of
other bindings. -/
structure Bound where
  names : List String
  others : Nat

/-- The bindings of one specifier. -/
def boundBySpecifier (functions : List String) (text : List Char) (specifier : Tree) : Bound :=
  let imported := ((specifier.child? .name).map fun name => withoutQuotes (name.textIn text)).getD []
  let localName := ((specifier.child? .localName).map (·.textIn text)).getD imported
  if functions.contains (String.ofList imported) then ⟨[String.ofList localName], 0⟩
  else ⟨[], 1⟩

/-- The bindings of one part of an import clause. A part that is no list of names counts as another
binding, and so does a comment. -/
def boundByPart (functions : List String) (text : List Char) (part : Tree) : List Bound :=
  if part.kind = .namedImports then
    (part.children.filter (·.kind = .importSpecifier)).map (boundBySpecifier functions text)
  else [⟨[], 1⟩]

/-- The bindings of an import statement. -/
def boundByImport (functions : List String) (text : List Char) (statement : Tree) : Bound :=
  let bounds := (statement.children.filter (·.kind = .importClause)).flatMap fun clause =>
    clause.namedChildren.flatMap (boundByPart functions text)
  ⟨bounds.flatMap (·.names), (bounds.map (·.others)).foldl (· + ·) 0⟩

/-- The imports from configured modules with what they bind. -/
def literalBindings (literals : Config.Literals) (text : List Char) (program : Tree) :
    List (Tree × Bound) :=
  ((imports text program).filter fun pair => literals.modules.contains pair.2).map fun pair =>
    (pair.1, boundByImport literals.functions text pair.1)

/-- The local names of literal functions. -/
def bindings (literals : Config.Literals) (text : List Char) (program : Tree) : List String :=
  (literalBindings literals text program).flatMap (·.2.names)

/-- The import statements that bind literal functions and nothing else. -/
def spareImports (literals : Config.Literals) (text : List Char) (program : Tree) : List Span :=
  ((literalBindings literals text program).filter fun pair =>
    !pair.2.names.isEmpty && pair.2.others == 0).map (·.1.span)

/-- The identifier that a statement binds as a namespace, when it binds nothing else. -/
def namespaceOf? (text : List Char) (statement : Tree) : Option String :=
  match statement.children.filter (·.kind = .importClause) with
  | [clause] =>
    match clause.namedChildren with
    | [part] =>
      if part.kind = .namespaceImport then
        part.namedChildren.head?.map fun name => String.ofList (name.textIn text)
      else none
    | _ => none
  | _ => none

/-- The imports of generated modules. -/
def artifactImports (text : List Char) (program : Tree) : List ArtifactImport :=
  (imports text program).filterMap fun pair =>
    (namespaceOf? text pair.1).bind fun ident =>
      (hashOfName? ident pair.2).map fun hash => ⟨hash, pair.1.span⟩

/-- The template that is the only argument of a call, when it has no substitutions. -/
def soleTemplate? (call : Tree) : Option Tree :=
  match call.children.filter (·.kind = .arguments) with
  | [arguments] =>
    match arguments.namedChildren with
    | [template] =>
      if template.kind = .template && !template.children.any (·.kind = .substitution) then
        some template
      else none
    | _ => none
  | _ => none

/-- The text between the backticks of a template. -/
def templateBody (text : List Char) (template : Tree) : List Char :=
  Span.textIn ⟨template.span.start + 1, template.span.stop - 1⟩ text

/-- The literal that a tree is a call of, when its callee is one of the names. -/
def occurrence? (names : List String) (text : List Char) (tree : Tree) : Option Occurrence :=
  if tree.kind = .call then
    match tree.children.head? with
    | some callee =>
      if callee.kind = .identifier && names.contains (String.ofList (callee.textIn text)) then
        (soleTemplate? tree).map fun template =>
          ⟨String.ofList (templateBody text template), tree.span⟩
      else none
    | none => none
  else none

/-- Calls without those that have the span of the one before them. -/
def dedupAfter (previous : Span) : List Occurrence → List Occurrence
  | [] => []
  | next :: rest =>
    if next.call = previous then dedupAfter previous rest
    else next :: dedupAfter next.call rest

/-- Calls in order, one for each span. -/
def dedupSpans : List Occurrence → List Occurrence
  | [] => []
  | first :: rest => first :: dedupAfter first.call rest

/-- The literal calls of a program in order of position. -/
def occurrences (names : List String) (text : List Char) (program : Tree) : List Occurrence :=
  if names.isEmpty then []
  else
    dedupSpans (Span.sortBy (·.call) (program.all.filterMap (occurrence? names text)))

end Scan

/-- What a text holds, given its tree. -/
def SourceScan.ofTree (literals : Config.Literals) (dialect : Dialect) (text : String)
    (program : Tree) : SourceScan :=
  let characters := text.toList
  { text, dialect
    occurrences :=
      Scan.occurrences (Scan.bindings literals characters program) characters program
    spareImports := Scan.spareImports literals characters program
    artifactImports := Scan.artifactImports characters program }

/-- Scans a text in the dialect of its path. -/
def scan (literals : Config.Literals) (path : Path) (text : String) (grammar : Grammar := parse) :
    Except Scan.Error SourceScan :=
  match Dialect.ofPath? path with
  | some dialect => .ok (.ofTree literals dialect text (grammar dialect text.toList))
  | none => .error (.unsupportedLanguage path)

end TypedLiterals
