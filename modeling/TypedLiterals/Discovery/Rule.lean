import TypedLiterals.Disk.Operations
import TypedLiterals.Glob.Match
import TypedLiterals.Text.Character

/-!
Ignore files.

Each line is a rule for the entries below the directory of the file. `!` in front makes it admit what
earlier rules left out, a slash at the end restricts it to directories, and a slash at the start or
inside ties it to the directory of the file. The last rule that applies to an entry decides.
-/

namespace TypedLiterals.Discovery

/-- What a rule decides. -/
inductive Verdict where
  | ignore
  | keep
deriving DecidableEq, Repr

/-- One line of an ignore file. -/
structure Rule where
  glob : Glob
  verdict : Verdict
  onlyDirectories : Bool

namespace Rule

/-- A line without the white space at its end, unless an escaped space stands there. -/
def trimLine (line : List Char) : List Char :=
  if [' ', '\\'].isPrefixOf line.reverse then line
  else (line.reverse.dropWhile Text.isWhiteSpace).reverse

/-- A pattern that matches at any depth unless it is tied to the directory. One that ends in `**` does
not match the directory itself. -/
def patternText (anchored : Bool) (body : List Char) : List Char :=
  let placed :=
    if anchored || body.contains '/' || body = ['*', '*'] then body
    else '*' :: '*' :: '/' :: body
  if "/**".toList.isSuffixOf placed then placed ++ ['/', '*'] else placed

/-- The pattern of a line without its slash at the end, and whether there was one. -/
def splitEnd (body : List Char) : List Char × Bool :=
  if body.getLast? = some '/' then
    let front := body.dropLast
    (if front.getLast? = some '\\' then front.dropLast else front, true)
  else (body, false)

/-- The pattern of a line without the marks in front: whether it keeps, whether it is anchored, and
the rest. A backslash keeps a mark from being one. -/
def splitStart : List Char → Bool × Bool × List Char
  | '\\' :: '!' :: rest => (false, false, '!' :: rest)
  | '\\' :: '#' :: rest => (false, false, '#' :: rest)
  | '!' :: '/' :: rest => (true, true, rest)
  | '!' :: rest => (true, false, rest)
  | '/' :: rest => (false, true, rest)
  | rest => (false, false, rest)

/-- The rule of a line; blank lines, comments and lines that are no pattern have none. -/
def ofLine? (line : List Char) : Option Rule :=
  if line.head? = some '#' then none
  else
    let trimmed := trimLine line
    if trimmed.isEmpty then none
    else
      let (keeps, anchored, start) := splitStart trimmed
      let (body, onlyDirectories) := splitEnd start
      match Glob.read (String.ofList (patternText anchored body)) with
      | .ok pieces =>
        some ⟨⟨pieces, true⟩, if keeps then .keep else .ignore, onlyDirectories⟩
      | .error _ => none

/-- Whether a rule speaks about a path relative to the directory of its file. -/
def applies (rule : Rule) (path : String) (isDirectory : Bool) : Bool :=
  (isDirectory || !rule.onlyDirectories) && rule.glob.isMatch path

/-- What a list of rules decides about a path relative to their directory. -/
def decide (rules : List Rule) (path : String) (isDirectory : Bool) : Option Verdict :=
  (rules.reverse.find? (·.applies path isDirectory)).map (·.verdict)

end Rule

/-! ## Files -/

/-- The lines of a file. A line feed ends a line, together with a carriage return before it. -/
def byteLines : List UInt8 → List (List UInt8)
  | [] => []
  | byte :: rest =>
    if byte = 10 then [] :: byteLines rest
    else
      match byte, rest, byteLines rest with
      | 13, 10 :: _, lines => lines
      | _, _, [] => [[byte]]
      | _, _, line :: later => (byte :: line) :: later

/-- The lines before the first one that is no text. -/
def textLines : List (List UInt8) → List String
  | [] => []
  | line :: rest =>
    match String.fromUTF8? ⟨line.toArray⟩ with
    | some text => text :: textLines rest
    | none => []

/-- A byte order mark in front of the first line is no part of it. -/
def withoutMark : List String → List (List Char)
  | [] => []
  | first :: rest => first.toList.dropWhile (· = '\uFEFF') :: rest.map String.toList

/-- The rules of an ignore file; a file that cannot be read has none. -/
def rulesIn (disk : Disk) (file : Path) : List Rule :=
  match disk.read file with
  | .ok content => (withoutMark (textLines (byteLines content.data.toList))).filterMap Rule.ofLine?
  | .error _ => []

end TypedLiterals.Discovery
