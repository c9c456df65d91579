import TypedLiterals.Text.Bytes

/-!
POSIX paths as texts.

A path keeps the text it was made from: `a//b` and `a/b` name the same file and stay different texts.
`components` is the reading that ignores such differences. Repeated and trailing slashes mean nothing,
and neither does a `.`, except as the first component of a relative path.
-/

namespace TypedLiterals

/-- A path as it is written. -/
structure Path where
  text : String
deriving DecidableEq, Repr, Inhabited

namespace Path

/-- One step of a path. -/
inductive Component where
  | root
  | current
  | parent
  | name (text : String)
deriving DecidableEq, Repr

def Component.text : Component → String
  | root => "/"
  | current => "."
  | parent => ".."
  | name text => text

/-- The pieces of a character list between the separators; there is always one more than separators. -/
def splitWhere (separates : Char → Bool) : List Char → List (List Char)
  | [] => [[]]
  | character :: rest =>
    if separates character then [] :: splitWhere separates rest
    else
      match splitWhere separates rest with
      | [] => [[character]]
      | piece :: later => (character :: piece) :: later

def isSlash (character : Char) : Bool :=
  character = '/'

def joinSlashes (pieces : List (List Char)) : List Char :=
  List.intercalate ['/'] pieces

/-- A piece between two slashes that names nothing. -/
def isVoid (piece : List Char) : Bool :=
  piece = [] || piece = ['.']

/-- The part of a path that stands before its first name: the root, a leading `.`, or nothing. -/
def splitHead : List Char → List Char × List Char
  | '/' :: rest => (['/'], rest)
  | ['.'] => (['.'], [])
  | '.' :: '/' :: rest => (['.'], '/' :: rest)
  | rest => ([], rest)

def headComponent : List Char → List Component
  | ['/'] => [.root]
  | ['.'] => [.current]
  | _ => []

def pieceComponent (piece : List Char) : Component :=
  if piece = ['.', '.'] then .parent else .name (String.ofList piece)

def isAbsolute (path : Path) : Bool :=
  (Text.characters path.text).head? == some '/'

/-- The pieces after the head of a path, void ones included. -/
def bodyPieces (path : Path) : List (List Char) :=
  splitWhere isSlash (splitHead (Text.characters path.text)).2

/-- The steps of a path. Repeated and trailing slashes and a `.` after the first step add none. -/
def components (path : Path) : List Component :=
  headComponent (splitHead (Text.characters path.text)).1 ++
    ((path.bodyPieces).filter (!isVoid ·)).map pieceComponent

/-- Drops void pieces from the end. -/
def trimVoidEnd (pieces : List (List Char)) : List (List Char) :=
  (pieces.reverse.dropWhile isVoid).reverse

/-- The path without its last component; the root and the empty path have no parent. -/
def parent? (path : Path) : Option Path :=
  let head := (splitHead (Text.characters path.text)).1
  match (trimVoidEnd path.bodyPieces).reverse with
  | _ :: before =>
    some ⟨String.ofList (head ++ joinSlashes (trimVoidEnd before.reverse))⟩
  | [] => if head = ['.'] then some ⟨""⟩ else none

/-- Appends a path; an absolute one replaces what came before. -/
def join (base : Path) (rel : Path) : Path :=
  if rel.isAbsolute then rel
  else if base.text.isEmpty || (Text.characters base.text).getLast? == some '/' then ⟨base.text ++ rel.text⟩
  else ⟨base.text ++ "/" ++ rel.text⟩

/-- What is left of pieces after matching the given components, when they all match. -/
def dropComponents : List Component → List (List Char) → Option (List (List Char))
  | [], pieces => some pieces
  | component :: rest, pieces =>
    match pieces.dropWhile isVoid with
    | [] => none
    | piece :: later => if pieceComponent piece = component then dropComponents rest later else none

/-- The part of a path below a directory, when its first components are those of the directory. -/
def stripPrefix? (path directory : Path) : Option Path :=
  let head := headComponent (splitHead (Text.characters path.text)).1
  let wanted := directory.components
  if wanted.take head.length = head then
    if wanted = [] then some path
    else
      (dropComponents (wanted.drop head.length) path.bodyPieces).map fun pieces =>
        ⟨String.ofList (joinSlashes (trimVoidEnd (pieces.dropWhile isVoid)))⟩
  else none

/-- The last component when it is a name. -/
def fileName? (path : Path) : Option String :=
  match path.components.getLast? with
  | some (.name text) => some text
  | _ => none

/-- What follows the last dot of the file name; a dot that comes first starts no extension. -/
def extension? (path : Path) : Option String :=
  path.fileName?.bind fun name =>
    match (splitWhere (· = '.') (Text.characters name)).reverse with
    | last :: before :: more =>
      if more = [] && before = [] then none else some (String.ofList last)
    | _ => none

/-- The names of a relative path written with slashes or backslashes, `.` left out. -/
def slashPieces (text : String) : List (List Char) :=
  (splitWhere (fun character => character = '/' || character = '\\') (Text.characters text)).filter
    (!isVoid ·)

/-- The canonical spelling of a relative path: names between single slashes. -/
def slashed (text : String) : String :=
  String.ofList (joinSlashes (slashPieces text))

/-- Appends a slashed relative path to a base, one name at a time. -/
def joinSlashed (base : Path) (rel : String) : Path :=
  ((splitWhere isSlash (Text.characters rel)).filter (· ≠ [])).foldl
    (fun path piece => path.join ⟨String.ofList piece⟩) base

/-- The number of leading elements that two lists share. -/
def sharedLength [DecidableEq α] : List α → List α → Nat
  | left :: lefts, right :: rights => if left = right then sharedLength lefts rights + 1 else 0
  | _, _ => 0

/-- A text without the given ending, or as it is when it does not end so. -/
def withoutEnding (ending text : List Char) : List Char :=
  if ending.isSuffixOf text then text.take (text.length - ending.length) else text

/-- The steps that lead from a directory to a target, joined by slashes. -/
def stepsBetween (directory target : Path) : List Char :=
  let shared := sharedLength directory.components target.components
  joinSlashes
    (List.replicate (directory.components.length - shared) ['.', '.'] ++
      (target.components.drop shared).map (Text.characters ·.text))

/-- The specifier by which a file in `directory` imports `target`, its extension left out. -/
def specifier (directory target : Path) (extension : String) : String :=
  let steps := withoutEnding extension.toList (stepsBetween directory target)
  if ['.', '.', '/'].isPrefixOf steps then String.ofList steps
  else String.ofList ('.' :: '/' :: steps)

end Path

end TypedLiterals
