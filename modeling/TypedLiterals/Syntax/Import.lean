import TypedLiterals.Syntax.Lexeme
import TypedLiterals.Syntax.Tree

/-!
Import statements.

The tree of an import statement has its module text in the role `source` and, when it binds names, a
clause for them. A comment belongs to the innermost part that has begun and not ended, which is why one
behind the last name of a clause belongs to the statement.
-/

namespace TypedLiterals.Syntax

/-- A token inside an import statement, with the comments in front of it. -/
structure Piece where
  comments : List Tree
  tree : Tree
  text : List Char
  after : Cursor

namespace Piece

def isWord (piece : Piece) : Bool :=
  piece.tree.kind == .identifier

def isString (piece : Piece) : Bool :=
  piece.tree.kind == .string

def isMark (character : Char) (piece : Piece) : Bool :=
  piece.tree.kind == .punctuation && piece.text == [character]

def isText (word : String) (piece : Piece) : Bool :=
  piece.isWord && piece.text == word.toList

/-- The comments in front of a piece and the piece, last first. -/
def reversed (piece : Piece) (tree : Tree) : List Tree :=
  tree :: piece.comments.reverse

end Piece

/-- Comments and spaces: the comments, and the cursor behind them. The first argument bounds their
number. -/
def trivia : Nat → Cursor → List Tree × Cursor
  | 0, cursor => ([], cursor)
  | count + 1, cursor =>
    let start := cursor.skipSpace
    match start.comment? with
    | none => ([], start)
    | some after =>
      let later := trivia count after
      (.leaf .comment ⟨start.offset, after.offset⟩ :: later.1, later.2)

def Cursor.trivia (cursor : Cursor) : List Tree × Cursor :=
  Syntax.trivia cursor.rest.length cursor

/-- The next token of an import statement: a word, a string or a single mark. -/
def Cursor.piece? (cursor : Cursor) : Option Piece :=
  let (comments, start) := cursor.trivia
  let make (kind : Kind) (taken : List Char) (rest : List Char) : Piece :=
    let after := start.behind (taken, rest)
    ⟨comments, .leaf kind ⟨start.offset, after.offset⟩, taken, after⟩
  match start.rest with
  | [] => none
  | character :: rest =>
    if startsIdentifier start.rest then
      let parts := identifierRest 0 start.rest
      some (make .identifier parts.1 parts.2)
    else if character = '\x22' || character = '\x27' then
      let parts := stringLiteralRest character rest
      some (make .string (character :: parts.1) parts.2)
    else some (make .punctuation [character] rest)

/-- A node over parts given last first; it spans them all. -/
def Tree.ofReversed (kind : Kind) (parts : List Tree) : Tree :=
  let children := parts.reverse
  let start := (children.head?.map (·.span.start)).getD 0
  let stop := (parts.head?.map (·.span.stop)).getD 0
  .node kind none ⟨start, stop⟩ children

/-- An import specifier that begins with the given piece, and the cursor behind it. A leading `type` is
a modifier unless it is the name itself. -/
def specifier (first : Piece) : Tree × Cursor :=
  let second := first.after.piece?.filter (·.isWord)
  let third := second.bind fun piece => piece.after.piece?.filter (·.isWord)
  let fourth := third.bind fun piece => piece.after.piece?.filter (·.isWord)
  let build (front : List Tree) (name : Piece) (renamed : Option (Piece × Piece)) : Tree × Cursor :=
    let named := name.tree.withRole .name :: front
    match renamed with
    | some (link, binding) =>
      (.ofReversed .importSpecifier
        (binding.reversed (binding.tree.withRole .localName) ++
          link.reversed (.leaf .keyword link.tree.span) ++ named), binding.after)
    | none => (.ofReversed .importSpecifier named, name.after)
  let plain :=
    match second, third with
    | some link, some binding => if link.isText "as" then some (link, binding) else none
    | _, _ => none
  if first.isText "type" then
    match second, third, fourth with
    | none, _, _ => build [] first none
    | some name, link, binding =>
      let modified := name.comments.reverse ++ [.leaf .keyword first.tree.span]
      if name.isText "as" then
        match link, binding with
        | none, _ => build modified name none
        | some link, some binding =>
          if link.isText "as" then build modified name (some (link, binding)) else build [] first plain
        | some _, none => build [] first plain
      else
        match link, binding with
        | some link, some binding =>
          build modified name (if link.isText "as" then some (link, binding) else none)
        | _, _ => build modified name none
  else build [] first plain

/-- The parts of named imports up to the closing brace, last first, and the cursor behind it. The first
argument bounds the number of pieces. -/
def specifiers : Nat → Cursor → List Tree → Option (List Tree × Cursor)
  | 0, _, _ => none
  | count + 1, cursor, parts =>
    cursor.piece?.bind fun piece =>
      if piece.isMark '}' then some (piece.reversed piece.tree ++ parts, piece.after)
      else if piece.isMark ',' then
        specifiers count piece.after (piece.reversed piece.tree ++ parts)
      else if piece.isWord || piece.isString then
        let (tree, after) := specifier piece
        specifiers count after (piece.reversed tree ++ parts)
      else none

/-- Named imports or a namespace import that begins with the given mark. -/
def importGroup? (first : Piece) : Option (Tree × Cursor) :=
  if first.isMark '{' then
    (specifiers first.after.rest.length first.after [first.tree]).map fun parts =>
      (.ofReversed .namedImports parts.1, parts.2)
  else if first.isMark '*' then
    first.after.piece?.bind fun link =>
      link.after.piece?.bind fun name =>
        if link.isText "as" && name.isWord then
          some (.ofReversed .namespaceImport
            (name.reversed name.tree ++ link.reversed (.leaf .keyword link.tree.span) ++ [first.tree]),
            name.after)
        else none
  else none

/-- The import clause that begins with the given piece. -/
def importClause? (first : Piece) : Option (Tree × Cursor) :=
  if first.isWord then
    match first.after.piece? with
    | some comma =>
      if comma.isMark ',' then
        comma.after.piece?.bind fun mark =>
          (importGroup? mark).map fun group =>
            (.ofReversed .importClause
              (mark.reversed group.1 ++ comma.reversed comma.tree ++ [first.tree]), group.2)
      else some (.ofReversed .importClause [first.tree], first.after)
    | none => none
  else
    (importGroup? first).map fun group => (.ofReversed .importClause [group.1], group.2)

/-- Comments and spaces left out. A slash that starts no comment gives `none`. -/
def skipComments : Nat → List Char → Option (List Char)
  | 0, text => some text
  | count + 1, text =>
    match text.dropWhile isSpace with
    | '/' :: '/' :: rest => skipComments count (lineCommentRest rest).2
    | '/' :: '*' :: rest => skipComments count (blockCommentRest rest).2
    | '/' :: _ => none
    | rest => some rest

/-- Whether a statement cannot go on with what the next line starts with. -/
def startsStatement : List Char → Bool
  | '.' :: rest => (rest.headD ' ').isDigit
  | '+' :: rest => rest.head? == some '+'
  | '-' :: rest => rest.head? == some '-'
  | '!' :: rest => rest.head? != some '='
  | 'i' :: 'n' :: rest =>
    let word := rest.takeWhile Char.isAlpha
    word != [] && (word.take 8 != "stanceof".toList || word.length > 8)
  | character :: _ => !"\x60,:;*%><=[(?^|&/".toList.contains character
  | [] => true

/-- What comments on the line of a statement lead to. -/
inductive LineComments where
  /-- The statement's line has ended. -/
  | ended (rest : List Char)
  | sameLine (rest : List Char)
  | none

/-- Comments that begin on the line of a statement. -/
def lineComments : Nat → List Char → LineComments
  | 0, _ => .none
  | count + 1, '/' :: '/' :: rest =>
    match (lineCommentRest rest).2.dropWhile isSpace with
    | '/' :: more => lineComments count ('/' :: more)
    | later => .ended later
  | count + 1, '/' :: '*' :: rest =>
    let (body, later) := blockCommentRest rest
    match later with
    | '/' :: more => lineComments count ('/' :: more)
    | _ =>
      if body.any fun character => isLineBreak character && character ≠ '\r' then .ended later
      else .sameLine later
  | _, _ => .none

/-- Whether a statement ends before this text although no semicolon is written. -/
def endsStatement : Nat → List Char → Bool
  | 0, _ => true
  | count + 1, text =>
    match text with
    | [] => true
    | '}' :: _ => true
    | '/' :: _ =>
      match lineComments text.length text with
      | .ended rest => if rest.head? == some ',' || rest.head? == some '=' then false else true
      | .sameLine rest => endsStatement count rest
      | .none => false
    | character :: rest =>
      if isLineBreak character && character ≠ '\r' then
        match skipComments rest.length rest with
        | some later => startsStatement later
        | none => false
      else if isSpace character then endsStatement count rest
      else false

/-- The semicolon that ends a statement, with the comments in front of it, last first; nothing when the
statement ends without one. -/
def semicolon (cursor : Cursor) : List Tree × Cursor :=
  if endsStatement cursor.rest.length cursor.rest then ([], cursor)
  else
    match cursor.piece? with
    | some piece => if piece.isMark ';' then (piece.reversed piece.tree, piece.after) else ([], cursor)
    | none => ([], cursor)

/-- The pieces of an attribute list up to its closing brace, last first. -/
def attributeParts : Nat → Cursor → List Tree → Option (List Tree × Cursor)
  | 0, _, _ => none
  | count + 1, cursor, parts =>
    cursor.piece?.bind fun piece =>
      if piece.isMark '}' then some (piece.reversed piece.tree ++ parts, piece.after)
      else attributeParts count piece.after (piece.reversed piece.tree ++ parts)

/-- The attributes behind a module text, such as `with` and an object. -/
def attributes? (cursor : Cursor) : Option (List Tree × Cursor) :=
  if endsStatement cursor.rest.length cursor.rest then none
  else
    cursor.piece?.bind fun word =>
      if word.isText "with" || word.isText "assert" then
        word.after.piece?.bind fun brace =>
          if brace.isMark '{' then
            (attributeParts brace.after.rest.length brace.after [brace.tree]).map fun parts =>
              (.ofReversed .braces parts.1 ::
                (brace.comments.reverse ++ word.reversed (.leaf .keyword word.tree.span)), parts.2)
          else none
      else none

/-- A statement whose parts up to its module text are given last first. -/
def finishImport (parts : List Tree) (cursor : Cursor) : Tree × Cursor :=
  let attributes := (attributes? cursor).getD ([], cursor)
  let ending := semicolon attributes.2
  (.ofReversed .importStatement (ending.1 ++ attributes.1 ++ parts), ending.2)

/-- Whether the word `type` or `typeof` modifies an import instead of being its name. -/
def isModifier (first : Piece) : Bool :=
  (first.isText "type" || first.isText "typeof") &&
    match first.after.piece? with
    | some second =>
      if second.isText "from" then
        match second.after.piece? with
        | some third => !third.isString
        | none => false
      else second.isWord || second.isMark '{' || second.isMark '*'
    | none => false

/-- The import statement whose keyword is given, with the cursor behind it. -/
def importStatement? (keyword : Tree) (cursor : Cursor) : Option (Tree × Cursor) :=
  cursor.piece?.bind fun first =>
    if first.isString then
      some (finishImport (first.reversed (first.tree.withRole .source) ++ [keyword]) first.after)
    else
      let modified :=
        if isModifier first then
          (first.after.piece?).map fun next =>
            (first.reversed (.leaf .keyword first.tree.span) ++ [keyword], next)
        else some ([keyword], first)
      modified.bind fun (front, start) =>
        (importClause? start).bind fun (clause, after) =>
          after.piece?.bind fun link =>
            link.after.piece?.bind fun source =>
              if link.isText "from" && source.isString then
                some (finishImport
                  (source.reversed (source.tree.withRole .source) ++
                    link.reversed (.leaf .keyword link.tree.span) ++ start.reversed clause ++ front)
                  source.after)
              else none

end TypedLiterals.Syntax
