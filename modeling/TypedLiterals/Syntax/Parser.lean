import TypedLiterals.Dialect
import TypedLiterals.Syntax.Import

/-!
Reading a text into a syntax tree.

The reader never fails: brackets that do not match close or are passed over, and the trees around them
stay. What a slash, a `<` or a brace means depends on the token before it, so that token's effect is
carried along.
-/

namespace TypedLiterals.Syntax

/-- What the last token says about the next one. -/
inductive Before where
  /-- A statement may start. -/
  | statement
  /-- An operand has ended. -/
  | operand
  | operator
  /-- A declaration or an operand follows. -/
  | defaultWord
  /-- A property name follows. -/
  | dot
  | newWord
  | functionWord
  /-- A parenthesised head and then a statement follow. -/
  | headWord
  /-- A block or an operand follows. -/
  | blockWord
  | arrow
  /-- A `>`, which may have closed type arguments. -/
  | angle
deriving DecidableEq, Repr

namespace Before

def expectsOperand (before : Before) : Bool :=
  before ≠ .operand && before ≠ .dot

/-- Whether a brace opens a block and not an object. -/
def opensBlock (before : Before) : Bool :=
  before ≠ .operator && before ≠ .defaultWord && before ≠ .newWord && before ≠ .dot

/-- Whether a function or class here is an operand and no declaration. -/
def withinOperation (before : Before) : Bool :=
  before == .operator || before == .newWord || before == .arrow

/-- The effect of a reserved word; other words are identifiers. -/
def ofWord? (word : String) : Option Before :=
  if ["if", "while", "for", "with"].contains word then some .headWord
  else if ["else", "do", "try", "finally", "void"].contains word then some .blockWord
  else if word = "function" then some .functionWord
  else if word = "new" then some .newWord
  else if word = "export" then some .statement
  else if word = "default" then some .defaultWord
  else if ["return", "throw", "typeof", "delete", "case", "in", "instanceof", "yield", "await", "extends",
      "const", "var"].contains word then some .operator
  else if ["break", "catch", "class", "continue", "debugger", "enum", "false", "import", "null",
      "super", "switch", "this", "true"].contains word then some .operand
  else none

end Before

/-- What a part of a text is read by: its dialect, and the closing brackets of the open groups,
innermost first. -/
structure Setting where
  dialect : Dialect
  closers : List Char

namespace Setting

def inside (setting : Setting) (closer : Char) : Setting :=
  { setting with closers := closer :: setting.closers }

/-- Whether elements can be written among expressions. -/
def hasElements (setting : Setting) : Bool :=
  setting.dialect ≠ .typeScript

def hasTypes (setting : Setting) : Bool :=
  setting.dialect ≠ .javaScript

end Setting

/-- How far a row of trees has been read. -/
structure Progress where
  cursor : Cursor
  before : Before
  /-- Whether a `case` or `default` still waits for its colon. -/
  caseHead : Bool
  /-- Whether a function or class that is an operand still waits for its body. -/
  operandBody : Bool
  /-- The trees so far, last first. -/
  reversed : List Tree

namespace Progress

def start (cursor : Cursor) (before : Before) : Progress :=
  ⟨cursor, before, false, false, []⟩

def push (progress : Progress) (tree : Tree) (before : Before) (cursor : Cursor) : Progress :=
  { progress with cursor, before, reversed := tree :: progress.reversed }

/-- Takes the next `count` characters as one leaf. -/
def take (progress : Progress) (kind : Kind) (count : Nat) (before : Before) : Progress :=
  let after := progress.cursor.skip count
  progress.push (.leaf kind ⟨progress.cursor.offset, after.offset⟩) before after

/-- Takes a leaf up to the given cursor. -/
def takeTo (progress : Progress) (kind : Kind) (after : Cursor) (before : Before) : Progress :=
  progress.push (.leaf kind ⟨progress.cursor.offset, after.offset⟩) before after

end Progress

/-- The cursor behind a closing bracket, when it is there. -/
def Cursor.close (cursor : Cursor) (closer : Char) : Cursor :=
  if cursor.rest.head? == some closer then cursor.skip 1 else cursor

/-- Whether the word `function` comes next. -/
def startsFunction (cursor : Cursor) : Bool :=
  (identifierRest 0 cursor.trivia.2.rest).1 = "function".toList

/-- A row between commas as one argument. Comments do not make an argument longer. -/
def argumentOf (parts : List Tree) : List Tree :=
  if (parts.filter (·.kind ≠ .comment)).length ≤ 1 then parts
  else [.ofReversed .expression parts.reverse]

/-- Arguments and the commas between them; `pending` holds the parts of the current one, last first. -/
def splitArguments (pending : List Tree) : List Tree → List Tree
  | [] => argumentOf pending.reverse
  | tree :: rest =>
    if tree.kind = .comma then argumentOf pending.reverse ++ tree :: splitArguments [] rest
    else splitArguments (tree :: pending) rest

/-- The mark that an operator or separator is, its length in characters and its effect. -/
def mark (setting : Setting) (progress : Progress) : List Char → Nat × Before
  | '=' :: '>' :: _ => (2, .arrow)
  | '.' :: '.' :: '.' :: _ => (3, .operator)
  | '?' :: '.' :: rest => if (rest.headD ' ').isDigit then (1, .operator) else (2, .dot)
  | '.' :: _ => (1, .dot)
  | '+' :: '+' :: _ => (2, progress.before)
  | '-' :: '-' :: _ => (2, progress.before)
  | '!' :: rest =>
    if rest.head? ≠ some '=' && progress.before == .operand && setting.hasTypes then (1, .operand)
    else (1, .operator)
  | '>' :: _ => (1, if setting.hasTypes then .angle else .operator)
  | '*' :: _ => (1, if progress.before == .functionWord then .functionWord else .operator)
  | ';' :: _ => (1, .statement)
  | ':' :: _ => (1, if progress.caseHead then .statement else .operator)
  | character :: _ => (1, if [')', ']', '}'].contains character then .operand else .operator)
  | [] => (1, .operator)

/-- The operators and separators of types. -/
def isTypeMark (character : Char) : Bool :=
  [',', '.', '|', '&', '?', ':'].contains character

/-- The words of types that another type follows. -/
def isTypePrefix (word : String) : Bool :=
  ["abstract", "asserts", "extends", "import", "infer", "is", "keyof", "new", "readonly", "typeof",
    "unique"].contains word

def isElementName (character : Char) : Bool :=
  isIdentifierPart character || ['-', ':', '.'].contains character

def isElementText (character : Char) : Bool :=
  !(['<', '>', '{', '}'].contains character)

mutual

/-- Reads trees up to a bracket that closes an open group, or to the end of the text. The first argument
bounds the depth of the reading. -/
def row : Nat → Setting → Progress → Progress
  | 0, _, progress => progress
  | fuel + 1, setting, progress =>
    let cursor := progress.cursor.skipSpace
    match cursor.comment? with
    | some after =>
      row fuel setting
        (progress.push (.leaf .comment ⟨cursor.offset, after.offset⟩) progress.before after)
    | none =>
      match cursor.rest with
      | [] => { progress with cursor }
      | character :: _ =>
        if setting.closers.contains character then { progress with cursor }
        else row fuel setting (token fuel setting { progress with cursor })

/-- Reads one token, group, call or statement, at least one character of it. -/
def token : Nat → Setting → Progress → Progress
  | 0, _, progress => progress.take .punctuation 1 .operator
  | fuel + 1, setting, progress =>
    let cursor := progress.cursor
    match cursor.rest with
    | [] => progress
    | character :: rest =>
      if startsIdentifier cursor.rest then word fuel setting progress
      else if character = '\x22' || character = '\x27' then
        progress.takeTo .string ((cursor.skip 1).behind (stringLiteralRest character rest)) .operand
      else if character = '\x60' then
        let (parts, after) := templateParts fuel setting (cursor.skip 1) []
        progress.push (.node .template none ⟨cursor.offset, after.offset⟩ parts.reverse) .operand
          after
      else if character.isDigit || (character = '.' && (rest.headD ' ').isDigit) then
        progress.take .number (number cursor.rest).length .operand
      else if character = '(' then
        let (parts, after) := group fuel setting ')' .operator (cursor.skip 1)
        progress.push (.node .parentheses none ⟨cursor.offset, after.offset⟩ parts)
          (if progress.before == .headWord then .statement else .operand) after
      else if character = '[' then
        let (parts, after) := group fuel setting ']' .operator (cursor.skip 1)
        progress.push (.node .brackets none ⟨cursor.offset, after.offset⟩ parts) .operand after
      else if character = '{' then
        let block := progress.before.opensBlock
        let (parts, after) := group fuel setting '}' (if block then .statement else .operator)
          (cursor.skip 1)
        let next := progress.push (.node .braces none ⟨cursor.offset, after.offset⟩ parts)
          (if block && !progress.operandBody then .statement else .operand) after
        { next with operandBody := next.operandBody && !block }
      else if character = '#' && startsIdentifier rest then
        progress.takeTo .privateName ((cursor.skip 1).behind (identifierRest 0 rest)) .operand
      else if character = '/' && progress.before.expectsOperand then
        match regexRest? false rest with
        | some parts => progress.takeTo .regex ((cursor.skip 1).behind parts) .operand
        | none => progress.take .punctuation 1 .operator
      else if progress.before.expectsOperand &&
          ("<!--".toList.isPrefixOf cursor.rest || "-->".toList.isPrefixOf cursor.rest) then
        progress.takeTo .comment (cursor.behind (lineCommentRest cursor.rest)) progress.before
      else if character = '<' && progress.before.expectsOperand && setting.hasElements then
        match element fuel setting cursor with
        | some (tree, after) => progress.push tree .operand after
        | none => progress.take .punctuation 1 .operator
      else
        let (count, effect) := mark setting progress cursor.rest
        let next := progress.take (if character = ',' then .comma else .punctuation) count effect
        { next with caseHead := next.caseHead && character ≠ ':' }

/-- Reads an identifier or keyword, with the call or import statement that it starts. -/
def word : Nat → Setting → Progress → Progress
  | 0, _, progress => progress.take .punctuation 1 .operator
  | fuel + 1, setting, progress =>
    let cursor := progress.cursor
    let parts := identifierRest 0 cursor.rest
    let after := cursor.behind parts
    let text := String.ofList parts.1
    if progress.before == .dot then progress.takeTo .identifier after .operand
    else
      match Before.ofWord? text with
      | some effect =>
        let keyword := Tree.leaf .keyword ⟨cursor.offset, after.offset⟩
        let statement :=
          if text = "import" && setting.closers.isEmpty then importStatement? keyword after else none
        match statement with
        | some (tree, behind) => progress.push tree .statement behind
        | none =>
          let next := progress.push keyword
            (if text = "await" && progress.before == .headWord then .headWord else effect) after
          let isOperand := progress.before.withinOperation && (text = "function" || text = "class")
          { next with
            caseHead := next.caseHead || text = "case" || text = "default"
            operandBody := next.operandBody || isOperand }
      | none =>
        if text = "of" && progress.before == .operand then progress.takeTo .keyword after .operator
        else if text = "async" && startsFunction after then progress.takeTo .identifier after progress.before
        else if progress.before == .newWord || progress.before == .functionWord then
          progress.takeTo .identifier after .operand
        else
          match call fuel setting (.leaf .identifier ⟨cursor.offset, after.offset⟩) after with
          | some (tree, behind) => progress.push tree .operand behind
          | none => progress.takeTo .identifier after .operand

/-- Reads what stands between an opening bracket and its closing one. -/
def group : Nat → Setting → Char → Before → Cursor → List Tree × Cursor
  | 0, _, _, _, cursor => ([], cursor)
  | fuel + 1, setting, closer, before, cursor =>
    let inner := row fuel (setting.inside closer) (.start cursor before)
    (inner.reversed.reverse, inner.cursor.close closer)

/-- The call of an identifier, when arguments follow it. -/
def call : Nat → Setting → Tree → Cursor → Option (Tree × Cursor)
  | 0, _, _, _ => none
  | fuel + 1, setting, callee, cursor =>
    let (comments, start) := cursor.trivia
    let front := comments.reverse ++ [callee]
    match start.rest with
    | '(' :: _ => some (applied fuel setting front start)
    | '?' :: '.' :: rest =>
      if (rest.headD ' ').isDigit then none
      else
        let chained := .leaf .punctuation ⟨start.offset, start.offset + 2⟩ :: front
        let (later, inner) := (start.skip 2).trivia
        match inner.rest with
        | '(' :: _ => some (applied fuel setting (later.reverse ++ chained) inner)
        | '<' :: _ =>
          if setting.hasTypes then typedCall fuel setting (later.reverse ++ chained) inner else none
        | _ => none
    | '<' :: _ => if setting.hasTypes then typedCall fuel setting front start else none
    | _ => none

/-- The rest of a call from its type arguments on, when these are type arguments. -/
def typedCall : Nat → Setting → List Tree → Cursor → Option (Tree × Cursor)
  | 0, _, _, _ => none
  | fuel + 1, setting, front, cursor =>
    match typeParts fuel setting .operator (cursor.skip 1) [] with
    | none => none
    | some (parts, after) =>
      let types := Tree.node .typeArguments none ⟨cursor.offset, after.offset⟩ parts.reverse
      let (comments, start) := after.trivia
      match start.rest with
      | '(' :: _ => some (applied fuel setting (comments.reverse ++ types :: front) start)
      | _ => none

/-- A call whose parts before the arguments are given last first; the cursor is at the parenthesis. -/
def applied : Nat → Setting → List Tree → Cursor → Tree × Cursor
  | 0, _, front, cursor => (.ofReversed .call front, cursor)
  | fuel + 1, setting, front, cursor =>
    let (parts, after) := group fuel setting ')' .operator (cursor.skip 1)
    let arguments :=
      Tree.node .arguments none ⟨cursor.offset, after.offset⟩ (splitArguments [] parts)
    (.ofReversed .call (arguments :: front), after)

/-- The substitutions of a template up to its closing backtick, last first. -/
def templateParts : Nat → Setting → Cursor → List Tree → List Tree × Cursor
  | 0, _, cursor, parts => (parts, cursor)
  | fuel + 1, setting, cursor, parts =>
    let start := cursor.behind (templateText cursor.rest)
    match start.rest with
    | '$' :: '{' :: _ =>
      let (inner, after) := group fuel setting '}' .operator (start.skip 2)
      templateParts fuel setting after
        (.node .substitution none ⟨start.offset, after.offset⟩ inner :: parts)
    | [] => (parts, start)
    | _ => (parts, start.skip 1)

/-- The parts of type arguments up to the closing angle, last first. `before` tells what the last part
was: after an operand no other one may start, and a question mark needs a constraint before it. -/
def typeParts : Nat → Setting → Before → Cursor → List Tree → Option (List Tree × Cursor)
  | 0, _, _, _, _ => none
  | fuel + 1, setting, before, cursor, parts =>
    let (comments, start) := cursor.trivia
    let front := comments.reverse ++ parts
    match start.rest with
    | [] => none
    | '>' :: _ => some (front, start.skip 1)
    | '<' :: _ =>
      match typeParts fuel setting .operator (start.skip 1) [] with
      | some (inner, after) =>
        typeParts fuel setting before after
          (.node .typeArguments none ⟨start.offset, after.offset⟩ inner.reverse :: front)
      | none => none
    | '=' :: '>' :: _ =>
      typeParts fuel setting .operator (start.skip 2)
        (.leaf .punctuation ⟨start.offset, start.offset + 2⟩ :: front)
    | '|' :: '|' :: _ => none
    | '&' :: '&' :: _ => none
    | '?' :: '?' :: _ => none
    | character :: rest =>
      if startsIdentifier start.rest then
        let text := identifierRest 0 start.rest
        let after := start.behind text
        let isPrefixWord := isTypePrefix (String.ofList text.1)
        let kind := if isPrefixWord then Kind.keyword else .identifier
        typeParts fuel setting (if isPrefixWord then .operator else .operand) after
          (.leaf kind ⟨start.offset, after.offset⟩ :: front)
      else if isTypeMark character then
        if character = '?' && !front.any (·.kind = .keyword) then none
        else
          typeParts fuel setting .operator (start.skip 1)
            (.leaf .punctuation ⟨start.offset, start.offset + 1⟩ :: front)
      else if before == .operand && character ≠ '[' then none
      else if character = '-' && (rest.headD ' ').isDigit then
        typeParts fuel setting .operator (start.skip 1)
          (.leaf .punctuation ⟨start.offset, start.offset + 1⟩ :: front)
      else if character.isDigit || ['\x22', '\x27', '\x60', '(', '[', '{'].contains character then
        let next := token fuel setting (.start start .operator)
        typeParts fuel setting .operand next.cursor (next.reversed ++ front)
      else none

/-- The element whose opening angle is at the cursor, when the text from there on is one. -/
def element : Nat → Setting → Cursor → Option (Tree × Cursor)
  | 0, _, _ => none
  | fuel + 1, setting, cursor =>
    let opened := ((cursor.skip 1).trivia).2
    let finish (parts : List Tree × Cursor) : Tree × Cursor :=
      (.node .element none ⟨cursor.offset, parts.2.offset⟩ parts.1.reverse, parts.2)
    match opened.rest with
    | '>' :: _ => (elementContent fuel setting (opened.skip 1) []).map finish
    | character :: _ =>
      if isIdentifierStart character then
        let named := opened.behind (opened.rest.span isElementName)
        let typed :=
          match named.rest with
          | '<' :: _ =>
            match typeParts fuel setting .operator (named.skip 1) [] with
            | some (_, after) => after
            | none => named
          | _ => named
        match attributeRow fuel setting typed [] with
        | some (parts, after, true) => some (finish (parts, after))
        | some (parts, after, false) => (elementContent fuel setting after parts).map finish
        | none => none
      else none
    | [] => none

/-- The expressions among the attributes of an element, last first, up to the end of its opening tag,
and whether the tag closes the element. -/
def attributeRow : Nat → Setting → Cursor → List Tree → Option (List Tree × Cursor × Bool)
  | 0, _, _, _ => none
  | fuel + 1, setting, cursor, parts =>
    let start := cursor.trivia.2
    match start.rest with
    | '>' :: _ => some (parts, start.skip 1, false)
    | '/' :: _ =>
      let closing := ((start.skip 1).trivia).2
      if closing.rest.head? == some '>' then some (parts, closing.skip 1, true) else none
    | '{' :: _ =>
      let (inner, after) := group fuel setting '}' .operator (start.skip 1)
      attributeRow fuel setting after
        (.node .braces none ⟨start.offset, after.offset⟩ inner :: parts)
    | '=' :: _ =>
      let value := ((start.skip 1).trivia).2
      match value.rest with
      | '<' :: _ =>
        match element fuel setting value with
        | some (tree, after) => attributeRow fuel setting after (tree :: parts)
        | none => none
      | '{' :: _ => attributeRow fuel setting value parts
      | quote :: rest =>
        if quote = '\x22' || quote = '\x27' then
          attributeRow fuel setting ((value.skip 1).behind (attributeStringRest quote rest)) parts
        else none
      | [] => none
    | character :: _ =>
      if isIdentifierStart character then
        attributeRow fuel setting (start.behind (start.rest.span isElementName)) parts
      else none
    | [] => none

/-- The expressions and elements in the content of an element, last first, up to its closing tag. -/
def elementContent : Nat → Setting → Cursor → List Tree → Option (List Tree × Cursor)
  | 0, _, _, _ => none
  | fuel + 1, setting, cursor, parts =>
    let start := cursor.behind (cursor.rest.span isElementText)
    match start.rest with
    | '{' :: _ =>
      let (inner, after) := group fuel setting '}' .operator (start.skip 1)
      elementContent fuel setting after
        (.node .braces none ⟨start.offset, after.offset⟩ inner :: parts)
    | '<' :: _ =>
      let opened := ((start.skip 1).trivia).2
      match opened.rest with
      | '/' :: _ =>
        let named := (opened.skip 1).behind
          ((opened.skip 1).rest.span fun character => isElementName character || isSpace character)
        if named.rest.head? == some '>' then some (parts, named.skip 1) else none
      | _ =>
        match element fuel setting start with
        | some (tree, after) => elementContent fuel setting after (tree :: parts)
        | none => none
    | _ => none

end

/-- The tree of a whole text. -/
def parse (dialect : Dialect) (text : List Char) : Tree :=
  let start : Cursor := ⟨0, text⟩
  let hashbang : Progress :=
    if "#!".toList.isPrefixOf text then
      (Progress.start start .statement).takeTo .comment (start.behind (hashbangRest text)) .statement
    else .start start .statement
  let read := row (8 * text.length + 16) ⟨dialect, []⟩ hashbang
  .node .program none ⟨0, read.cursor.offset⟩ read.reversed.reverse

end TypedLiterals.Syntax
