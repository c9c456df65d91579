import TypedLiterals.Text.Character

/-!
The lexical elements of scripts.

Each reader takes the characters behind the mark that starts an element and gives the rest of the
element and what follows it.
-/

namespace TypedLiterals.Syntax

/-- The line ends of scripts. -/
def isLineBreak (character : Char) : Bool :=
  ['\n', '\r', '\u2028', '\u2029'].contains character

/-- The characters that separate tokens. -/
def isSpace (character : Char) : Bool :=
  Text.isWhiteSpace character || ['\u200B', '\u2060', '\uFEFF'].contains character

/-- The characters that can stand in an identifier: all but controls, spaces and ASCII marks. -/
def isIdentifierPart (character : Char) : Bool :=
  0x20 ≤ character.toNat && !isSpace character &&
    !":;`\"'@#.,|^&<=>+-*/\\%?!~()[]\x7b\x7d".toList.contains character

def isIdentifierStart (character : Char) : Bool :=
  isIdentifierPart character && !character.isDigit

/-- The length of the escape `uXXXX` or `u` and digits in braces that a text starts with; zero if it
starts with none. The backslash is not counted. -/
def escapeLength : List Char → Nat
  | 'u' :: '{' :: rest =>
    let digits := (rest.takeWhile Text.isHexDigit).length
    if 0 < digits && (rest.drop digits).head? == some '}' then digits + 3 else 0
  | 'u' :: rest => if ((rest.take 4).takeWhile Text.isHexDigit).length = 4 then 5 else 0
  | _ => 0

/-- The rest of an identifier. Escapes are kept as they are written; `skip` characters belong to one. -/
def identifierRest : (skip : Nat) → List Char → List Char × List Char
  | _, [] => ([], [])
  | skip + 1, character :: rest =>
    (character :: (identifierRest skip rest).1, (identifierRest skip rest).2)
  | 0, character :: rest =>
    if isIdentifierPart character then
      (character :: (identifierRest 0 rest).1, (identifierRest 0 rest).2)
    else if character = '\\' && 0 < escapeLength rest then
      (character :: (identifierRest (escapeLength rest) rest).1,
        (identifierRest (escapeLength rest) rest).2)
    else ([], character :: rest)

/-- Whether an identifier starts here. -/
def startsIdentifier : List Char → Bool
  | '\\' :: rest => 0 < escapeLength rest
  | character :: _ => isIdentifierStart character
  | [] => false

def lineCommentRest (text : List Char) : List Char × List Char :=
  text.span (!isLineBreak ·)

/-- The rest of a hashbang line, which only a line feed ends. -/
def hashbangRest (text : List Char) : List Char × List Char :=
  text.span (· ≠ '\n')

def blockCommentRest : List Char → List Char × List Char
  | '*' :: '/' :: rest => (['*', '/'], rest)
  | character :: rest => (character :: (blockCommentRest rest).1, (blockCommentRest rest).2)
  | [] => ([], [])

/-- The rest of a string after its opening quote. A line end stops a string that is not closed, unless a
backslash stands before it. -/
def stringLiteralRest (quote : Char) : List Char → List Char × List Char
  | [] => ([], [])
  | '\\' :: '\r' :: '\n' :: rest =>
    ('\\' :: '\r' :: '\n' :: (stringLiteralRest quote rest).1, (stringLiteralRest quote rest).2)
  | '\\' :: character :: rest =>
    ('\\' :: character :: (stringLiteralRest quote rest).1, (stringLiteralRest quote rest).2)
  | character :: rest =>
    if character = quote then ([character], rest)
    else if character = '\n' || character = '\r' then ([], character :: rest)
    else (character :: (stringLiteralRest quote rest).1, (stringLiteralRest quote rest).2)

/-- The rest of a string between tags, where nothing is escaped. -/
def attributeStringRest (quote : Char) (text : List Char) : List Char × List Char :=
  match text.span (· ≠ quote) with
  | (taken, closing :: rest) => (taken ++ [closing], rest)
  | (taken, []) => (taken, [])

def isDigitPart (character : Char) : Bool :=
  character.isDigit || character = '_'

/-- The exponent that a text starts with, if any. -/
def exponent : List Char → List Char
  | mark :: rest =>
    if mark = 'e' || mark = 'E' then
      match rest with
      | sign :: digits =>
        if (sign = '+' || sign = '-') && (digits.headD ' ').isDigit then
          mark :: sign :: digits.takeWhile isDigitPart
        else if sign.isDigit then mark :: rest.takeWhile isDigitPart
        else []
      | [] => []
    else []
  | [] => []

/-- The number that a text starts with, in any of the written forms. -/
def number (text : List Char) : List Char :=
  match text with
  | '0' :: base :: _ =>
    if ['x', 'X', 'o', 'O', 'b', 'B'].contains base then text.takeWhile isIdentifierPart
    else decimal text
  | _ => decimal text
where
  decimal (text : List Char) : List Char :=
    let whole := text.takeWhile isDigitPart
    let fraction :=
      match text.drop whole.length with
      | '.' :: rest => '.' :: rest.takeWhile isDigitPart
      | _ => []
    let power := exponent (text.drop (whole.length + fraction.length))
    let before := whole ++ fraction ++ power
    before ++ (text.drop before.length).takeWhile (· = 'n')

/-- The rest of a regular expression after its first slash, flags included. A slash inside brackets
does not end it, and a line end before the last slash means that there is none. -/
def regexRest? (inClass : Bool) : List Char → Option (List Char × List Char)
  | [] => none
  | '\\' :: character :: rest =>
    if isLineBreak character then none
    else (regexRest? inClass rest).map fun parts => ('\\' :: character :: parts.1, parts.2)
  | character :: rest =>
    if isLineBreak character then none
    else if character = '/' && !inClass then
      let flags := rest.takeWhile fun next => 'a' ≤ next && next ≤ 'z'
      some (character :: flags, rest.drop flags.length)
    else
      let within := if character = '[' then true else if character = ']' then false else inClass
      (regexRest? within rest).map fun parts => (character :: parts.1, parts.2)

/-- Plain text of a template up to its end or the next substitution. A backslash takes the next
character with it. -/
def templateText : List Char → List Char × List Char
  | [] => ([], [])
  | '\\' :: character :: rest =>
    ('\\' :: character :: (templateText rest).1, (templateText rest).2)
  | '$' :: '{' :: rest => ([], '$' :: '{' :: rest)
  | character :: rest =>
    if character = '\x60' then ([], character :: rest)
    else (character :: (templateText rest).1, (templateText rest).2)

/-- A place in a text: its byte offset and the characters from there on. -/
structure Cursor where
  offset : Nat
  rest : List Char
deriving Repr, Inhabited

namespace Cursor

/-- The cursor behind `taken`, where `rest` follows. -/
def behind (cursor : Cursor) (parts : List Char × List Char) : Cursor :=
  ⟨cursor.offset + (parts.1.foldl (fun sum character => sum + character.utf8Size) 0), parts.2⟩

/-- The cursor behind the next `count` characters. -/
def skip (count : Nat) (cursor : Cursor) : Cursor :=
  cursor.behind (cursor.rest.splitAt count)

def skipSpace (cursor : Cursor) : Cursor :=
  cursor.behind (cursor.rest.span isSpace)

/-- The cursor behind the comment that starts here, if one does. -/
def comment? (cursor : Cursor) : Option Cursor :=
  match cursor.rest with
  | '/' :: '/' :: rest => some ((cursor.skip 2).behind (lineCommentRest rest))
  | '/' :: '*' :: rest => some ((cursor.skip 2).behind (blockCommentRest rest))
  | _ => none

end Cursor

end TypedLiterals.Syntax
