import TypedLiterals.Text.Character

/-!
TOML documents.

A document is read line by line into a tree of tables. Which tables may be extended depends on how they
came to be: by a header, on the way to the table of another header, by a dotted key, or inline. Numbers
and dates are checked and not kept, since nothing here is configured with one.
-/

namespace TypedLiterals.Toml

/-- How a table came to be. -/
structure Shape where
  inline : Bool
  /-- On the way to another table or key, without a header of its own. -/
  implicit : Bool
  /-- By a dotted key. -/
  dotted : Bool
deriving DecidableEq, Repr

/-- A value of a document. Numbers and dates are told apart, but not kept. -/
inductive Item where
  | text (value : String)
  | number
  | boolean (value : Bool)
  | date
  | array (items : List Item)
  | table (shape : Shape) (entries : List (String × Item))
  /-- The tables of a repeated header, the last one first. -/
  | tables (latest : List (String × Item)) (earlier : List (List (String × Item)))
deriving Repr

abbrev Entries := List (String × Item)

def find? (key : String) (entries : Entries) : Option Item :=
  entries.lookup key

/-- The entries with one key set to an item. -/
def set (key : String) (item : Item) (entries : Entries) : Entries :=
  (key, item) :: entries.filter (·.1 ≠ key)

/-- The shape and entries of the table that a change is made to. -/
structure Open where
  shape : Shape
  entries : Entries

/-- Changes the table at the end of a path. Tables that are missing on the way are made, with the given
shape; what is there must be open to extension. -/
def descend (made : Shape) (change : Open → Option Entries) : List String → Open → Option Entries
  | [], table => change table
  | key :: rest, table =>
    match find? key table.entries with
    | none =>
      (descend made change rest ⟨made, []⟩).map fun inner =>
        set key (.table made inner) table.entries
    | some (.table shape entries) =>
      if shape.inline ≠ made.inline ∨ (made.dotted ∧ ¬ shape.implicit) then none
      else
        (descend made change rest ⟨shape, entries⟩).map fun inner =>
          set key (.table shape inner) table.entries
    | some (.tables latest earlier) =>
      (descend made change rest ⟨⟨false, false, false⟩, latest⟩).map fun inner =>
        set key (.tables inner earlier) table.entries
    | some _ => none

/-- Adds a value under a key that is new. Keys that share a table must all be dotted or all plain. -/
def addValue (isPlain : Bool) (key : String) (value : Item) (table : Open) : Option Entries :=
  if table.shape.dotted = isPlain ∨ (find? key table.entries).isSome then none
  else some (set key value table.entries)

/-- Adds a value under a dotted key. -/
def addPair (inline : Bool) (path : List String) (key : String) (value : Item) (table : Open) :
    Option Entries :=
  descend ⟨inline, true, true⟩ (addValue path.isEmpty key value) path table

/-! ## Characters and strings -/

def isBlank (character : Char) : Bool :=
  character = ' ' || character = '\t'

/-- Characters that may stand in comments and strings: all but controls, the tab excepted. -/
def isPlainCharacter (character : Char) : Bool :=
  character = '\t' || (0x20 ≤ character.toNat && character.toNat ≠ 0x7F)

def isBareKey (character : Char) : Bool :=
  character.isAlphanum || character = '_' || character = '-'

def skipBlank (text : List Char) : List Char :=
  text.dropWhile isBlank

/-- What follows a line end, when the text starts with one. -/
def newline? : List Char → Option (List Char)
  | '\n' :: rest => some rest
  | '\r' :: '\n' :: rest => some rest
  | _ => none

/-- What follows a comment, when the text starts with one. -/
def skipComment : List Char → List Char
  | '#' :: rest => rest.dropWhile isPlainCharacter
  | rest => rest

/-- What follows the end of a line that holds nothing more than a comment. -/
def lineEnd? (text : List Char) : Option (List Char) :=
  match skipComment (skipBlank text) with
  | [] => some []
  | rest => newline? rest

/-- Blanks, comments and line ends left out; the first argument bounds their number. -/
def skipLines : Nat → List Char → List Char
  | 0, text => text
  | count + 1, text =>
    match skipBlank text with
    | '#' :: rest => skipLines count (rest.dropWhile isPlainCharacter)
    | rest =>
      match newline? rest with
      | some after => skipLines count after
      | none => rest

/-- The character with a code given in hexadecimal digits, if it is a scalar value. -/
def scalar? (digits : List Char) (count : Nat) : Option Char :=
  if digits.length = count ∧ digits.all Text.isHexDigit then
    let code := digits.foldl (fun sum digit => sum * 16 + Text.hexValue digit) 0
    if h : code.isValidChar then some (Char.ofNatAux code h) else none
  else none

/-- The character that an escape after its backslash stands for, and the length of the escape. -/
def unescape? : List Char → Option (Char × Nat)
  | 'b' :: _ => some ('\x08', 1)
  | 't' :: _ => some ('\t', 1)
  | 'n' :: _ => some ('\n', 1)
  | 'f' :: _ => some ('\x0c', 1)
  | 'r' :: _ => some ('\r', 1)
  | '\x22' :: _ => some ('\x22', 1)
  | '\\' :: _ => some ('\\', 1)
  | 'u' :: rest => (scalar? (rest.take 4) 4).map (·, 5)
  | 'U' :: rest => (scalar? (rest.take 8) 8).map (·, 9)
  | _ => none

/-- The characters of a string of one line after its opening quote, and what follows the closing one. A
string in double quotes has escapes; the first `skip` characters belong to one that has been read. -/
def readLine (quote : Char) : (skip : Nat) → List Char → Option (List Char × List Char)
  | _, [] => none
  | skip + 1, _ :: rest => readLine quote skip rest
  | 0, character :: rest =>
    if character = quote then some ([], rest)
    else if character = '\\' ∧ quote = '\x22' then
      (unescape? rest).bind fun escaped =>
        (readLine quote escaped.2 rest).map fun parts => (escaped.1 :: parts.1, parts.2)
    else if isPlainCharacter character then
      (readLine quote 0 rest).map fun parts => (character :: parts.1, parts.2)
    else none

/-- The number of characters in the blanks and line ends at the start of a text. A carriage return
counts only before a line feed. -/
def blankRun : List Char → Nat
  | '\r' :: '\n' :: rest => blankRun rest + 2
  | next :: rest => if isBlank next || next = '\n' then blankRun rest + 1 else 0
  | [] => 0

/-- The number of blanks and line ends at the start of a text, when a line end is among the first of
them after blanks only; a backslash before them continues a line. -/
def continuation? (text : List Char) : Option Nat :=
  match newline? (skipBlank text) with
  | none => none
  | some _ => some (blankRun text)

/-- The characters of a string of several lines after its opening quotes, and what follows the closing
ones. Up to two quotes may stand before those. -/
def readLines (quote : Char) : (skip : Nat) → List Char → Option (List Char × List Char)
  | _, [] => none
  | skip + 1, _ :: rest => readLines quote skip rest
  | 0, character :: rest =>
    if character = quote then
      let run := ((character :: rest).takeWhile (· = quote)).length
      if 3 ≤ run then
        let extra := min (run - 3) 2
        some (List.replicate extra quote, (character :: rest).drop (extra + 3))
      else (readLines quote 0 rest).map fun parts => (character :: parts.1, parts.2)
    else if character = '\\' ∧ quote = '\x22' then
      match continuation? rest with
      | some count => readLines quote count rest
      | none =>
        (unescape? rest).bind fun escaped =>
          (readLines quote escaped.2 rest).map fun parts => (escaped.1 :: parts.1, parts.2)
    else if character = '\n' ∨ (character = '\r' ∧ rest.head? = some '\n') then
      (readLines quote (if character = '\r' then 1 else 0) rest).map fun parts =>
        ('\n' :: parts.1, parts.2)
    else if isPlainCharacter character then
      (readLines quote 0 rest).map fun parts => (character :: parts.1, parts.2)
    else none

/-- The string whose opening quote has been read. -/
def readString? (quote : Char) (text : List Char) : Option (String × List Char) :=
  let parts :=
    if text.take 2 = [quote, quote] then
      let body := text.drop 2
      readLines quote 0 ((newline? body).getD body)
    else readLine quote 0 text
  parts.map fun parts => (String.ofList parts.1, parts.2)

/-! ## Keys -/

/-- A deeper nesting or a longer key than this is refused. -/
def depthLimit : Nat := 80

/-- One part of a key. -/
def simpleKey? : List Char → Option (String × List Char)
  | [] => none
  | character :: rest =>
    if character = '\x22' ∨ character = '\x27' then
      (readLine character 0 rest).map fun parts => (String.ofList parts.1, parts.2)
    else
      let name := (character :: rest).takeWhile isBareKey
      if name = [] then none else some (String.ofList name, (character :: rest).dropWhile isBareKey)

/-- The parts of a dotted key; the first argument bounds their number. -/
def keyParts : Nat → List Char → Option (List String × List Char)
  | 0, _ => none
  | count + 1, text =>
    (simpleKey? (skipBlank text)).bind fun part =>
      match skipBlank part.2 with
      | '.' :: rest =>
        (keyParts count rest).map fun later => (part.1 :: later.1, later.2)
      | rest => some ([part.1], rest)

/-- A dotted key as the path before its last part, and that part. -/
def key? (text : List Char) : Option ((List String × String) × List Char) :=
  (keyParts (depthLimit - 1) text).bind fun parts =>
    parts.1.getLast?.map fun last => ((parts.1.dropLast, last), parts.2)

/-! ## Numbers and dates -/

/-- Digits with single underscores between them, and what follows; at least one digit. -/
def digitRun? (isDigit : Char → Bool) : List Char → Option (List Char × List Char)
  | [] => none
  | first :: rest =>
    if isDigit first then
      match rest with
      | '_' :: more =>
        (digitRun? isDigit more).map fun parts => (first :: parts.1, parts.2)
      | [] => some ([first], [])
      | next :: more =>
        if isDigit next then
          (digitRun? isDigit (next :: more)).map fun parts => (first :: parts.1, parts.2)
        else some ([first], next :: more)
    else none

def skipSign : List Char → List Char
  | '+' :: rest => rest
  | '-' :: rest => rest
  | rest => rest

/-- Decimal digits that do not start with a zero, or a single zero, and what follows. -/
def wholeNumber? (text : List Char) : Option (List Char × List Char) :=
  match text with
  | '0' :: rest => some (['0'], rest)
  | _ => digitRun? Char.isDigit text

def numberOf (base : Nat) (digits : List Char) : Nat :=
  digits.foldl (fun sum digit => sum * base + Text.hexValue digit) 0

/-- What follows the fraction of a float, and its digits. -/
def fraction? : List Char → Option (List Char × List Char)
  | '.' :: rest => digitRun? Char.isDigit rest
  | _ => none

/-- The exponent of a float: whether it is negative, its digits, and what follows. -/
def exponent? : List Char → Option (Bool × List Char × List Char)
  | mark :: rest =>
    if mark = 'e' ∨ mark = 'E' then
      (digitRun? Char.isDigit (skipSign rest)).map fun parts => (rest.head? == some '-', parts)
    else none
  | [] => none

/-- Whether a decimal is too large for a double: at least halfway from the largest finite one to the
next power of two. -/
def isTooLarge (digits : List Char) (fractionLength : Nat) (negative : Bool) (exponent : Nat) : Bool :=
  let mantissa := numberOf 10 digits
  let limit := Nat.pow 2 1024 - Nat.pow 2 970
  if mantissa = 0 then false
  else if negative then
    if exponent > 400 + digits.length then false
    else decide (limit * Nat.pow 10 (fractionLength + exponent) ≤ mantissa)
  else if exponent > 400 + fractionLength then true
  else decide (limit * Nat.pow 10 fractionLength ≤ mantissa * Nat.pow 10 exponent)

/-- What follows a number with a fraction or an exponent. The outer option is empty when the text is no
such number, the inner one when the number is out of range. -/
def float? (text : List Char) : Option (Option (List Char)) :=
  let unsigned := skipSign text
  (wholeNumber? unsigned).bind fun whole =>
    let check (digits : List Char) (fractionLength : Nat) (rest : List Char) (negative : Bool)
        (exponent : Nat) : Option (List Char) :=
      if text.head? ≠ some '-' ∧ isTooLarge digits fractionLength negative exponent then none
      else some rest
    match fraction? whole.2 with
    | some part =>
      match exponent? part.2 with
      | some (negative, digits, rest) =>
        some (check (whole.1 ++ part.1) part.1.length rest negative (numberOf 10 digits))
      | none => some (check (whole.1 ++ part.1) part.1.length part.2 false 0)
    | none =>
      (exponent? whole.2).map fun (negative, digits, rest) =>
        check whole.1 0 rest negative (numberOf 10 digits)

/-- What follows an integer that fits into 64 bits with sign. -/
def integer? (text : List Char) : Option (List Char) :=
  let based (base : Nat) (isDigit : Char → Bool) (rest : List Char) : Option (List Char) :=
    (digitRun? isDigit rest).bind fun parts =>
      if numberOf base parts.1 < Nat.pow 2 63 then some parts.2 else none
  match text with
  | '0' :: 'x' :: rest => based 16 Text.isHexDigit rest
  | '0' :: 'o' :: rest => based 8 (fun digit => '0' ≤ digit && digit ≤ '7') rest
  | '0' :: 'b' :: rest => based 2 (fun digit => digit = '0' || digit = '1') rest
  | _ =>
    (wholeNumber? (skipSign text)).bind fun parts =>
      let bound := if text.head? = some '-' then Nat.pow 2 63 else Nat.pow 2 63 - 1
      if numberOf 10 parts.1 ≤ bound then some parts.2 else none

/-- The number that exactly `count` digits stand for, and what follows. -/
def fixedDigits? (count : Nat) (text : List Char) : Option (Nat × List Char) :=
  let digits := (text.take count).takeWhile Char.isDigit
  if digits.length = count then some (numberOf 10 digits, text.drop count) else none

def daysInMonth (year month : Nat) : Nat :=
  if month = 2 then
    if year % 4 = 0 ∧ (year % 100 ≠ 0 ∨ year % 400 = 0) then 29 else 28
  else if [4, 6, 9, 11].contains month then 30
  else 31

/-- What follows the minutes, seconds and fraction of a time, when they are in range. -/
def timeRest? (text : List Char) : Option (List Char) :=
  match fixedDigits? 2 text with
  | some (minute, ':' :: rest) =>
    (fixedDigits? 2 rest).bind fun (second, after) =>
      if 59 < minute ∨ 60 < second then none
      else
        match after with
        | '.' :: more =>
          if (more.headD ' ').isDigit then some (more.dropWhile Char.isDigit) else none
        | _ => some after
  | _ => none

/-- The hour that a text starts with, and what follows its colon. -/
def hour? (text : List Char) : Option (List Char) :=
  match fixedDigits? 2 text with
  | some (hour, ':' :: rest) => if hour ≤ 23 then some rest else none
  | _ => none

/-- What follows an offset from universal time, when there is one; `none` when it is not complete. -/
def offset? : List Char → Option (List Char)
  | 'Z' :: rest => some rest
  | 'z' :: rest => some rest
  | sign :: rest =>
    if sign = '+' ∨ sign = '-' then
      match hour? rest with
      | some minutes =>
        (fixedDigits? 2 minutes).bind fun (minute, after) => if minute ≤ 59 then some after else none
      | none => some (sign :: rest)
    else some (sign :: rest)
  | [] => some []

/-- What follows a date or time. The outer option is empty when the text is none, the inner one when it
is not complete or names no day or time. -/
def date? (text : List Char) : Option (Option (List Char)) :=
  match fixedDigits? 4 text with
  | some (year, '-' :: rest) =>
    some (match fixedDigits? 2 rest with
      | some (month, '-' :: more) =>
        (fixedDigits? 2 more).bind fun (day, after) =>
          if month = 0 ∨ 12 < month ∨ day = 0 ∨ daysInMonth year month < day then none
          else
            match after with
            | mark :: time =>
              if mark = 'T' ∨ mark = 't' ∨ mark = ' ' then
                match hour? time with
                | some minutes => (timeRest? minutes).bind offset?
                | none => some after
              else some after
            | [] => some []
      | _ => none)
  | _ => (hour? text).map timeRest?

/-- What follows a literal word. -/
def literal? (word : String) (text : List Char) : Option (List Char) :=
  word.toList.isPrefixOf? text

/-- A number or date, and what follows it. -/
def numeral? (text : List Char) : Option (Item × List Char) :=
  match date? text with
  | some outcome => outcome.map (.date, ·)
  | none =>
    match float? text with
    | some outcome => outcome.map (.number, ·)
    | none =>
      match literal? "inf" (skipSign text) <|> literal? "nan" (skipSign text) with
      | some rest => some (.number, rest)
      | none => (integer? text).map (.number, ·)

/-! ## Values -/

mutual

/-- A value, and what follows it. The first argument bounds the number of steps, `depth` counts the
brackets around the value. -/
def value? : Nat → (depth : Nat) → List Char → Option (Item × List Char)
  | 0, _, _ => none
  | fuel + 1, depth, text =>
    match text with
    | [] => none
    | character :: rest =>
      if character = '\x22' ∨ character = '\x27' then
        (readString? character rest).map fun parts => (.text parts.1, parts.2)
      else if character = '[' then
        if depthLimit ≤ depth + 1 then none
        else (arrayItems? fuel (depth + 1) rest).map fun parts => (.array parts.1, parts.2)
      else if character = '{' then
        if depthLimit ≤ depth + 1 then none
        else
          match skipBlank rest with
          | '}' :: after => some (.table ⟨true, false, false⟩ [], after)
          | start =>
            (inlinePairs? fuel (depth + 1) ⟨⟨true, false, false⟩, []⟩ start).map fun parts =>
              (.table ⟨true, false, false⟩ parts.1, parts.2)
      else if character = 't' then (literal? "true" text).map (.boolean true, ·)
      else if character = 'f' then (literal? "false" text).map (.boolean false, ·)
      else numeral? text

/-- The items of an array up to its closing bracket. -/
def arrayItems? : Nat → Nat → List Char → Option (List Item × List Char)
  | 0, _, _ => none
  | fuel + 1, depth, text =>
    match skipLines text.length text with
    | ']' :: after => some ([], after)
    | start =>
      (value? fuel depth start).bind fun item =>
        match skipLines item.2.length item.2 with
        | ']' :: after => some ([item.1], after)
        | ',' :: more =>
          (arrayItems? fuel depth more).map fun later => (item.1 :: later.1, later.2)
        | _ => none

/-- The pairs of an inline table up to its closing brace, added to the given ones. -/
def inlinePairs? : Nat → Nat → Open → List Char → Option (Entries × List Char)
  | 0, _, _, _ => none
  | fuel + 1, depth, table, text =>
    (key? text).bind fun ((path, name), afterKey) =>
      match afterKey with
      | '=' :: rest =>
        (value? fuel depth (skipBlank rest)).bind fun item =>
          (addPair true path name item.1 table).bind fun entries =>
            match skipBlank item.2 with
            | '}' :: after => some (entries, after)
            | ',' :: more => inlinePairs? fuel depth ⟨table.shape, entries⟩ more
            | _ => none
      | _ => none

end

/-! ## Documents -/

/-- A document that is being read. The table under the last header is kept apart until the next. -/
structure Progress where
  root : Entries
  /-- The path of the last header; empty before the first. -/
  path : List String
  repeated : Bool
  current : Entries

/-- Adds the table under the last header to the document. -/
def Progress.close? (progress : Progress) : Option Entries :=
  match progress.path.getLast? with
  | none => some progress.current
  | some last =>
    descend ⟨false, true, false⟩
      (fun table =>
        if progress.repeated then
          match find? last table.entries with
          | none => some (set last (.tables progress.current []) table.entries)
          | some (.tables latest earlier) =>
            some (set last (.tables progress.current (latest :: earlier)) table.entries)
          | some _ => none
        else
          match find? last table.entries with
          | none => some (set last (.table ⟨false, false, false⟩ progress.current) table.entries)
          | some _ => none)
      progress.path.dropLast ⟨⟨false, false, false⟩, progress.root⟩

/-- The entries of a table that was only on the way to others and now gets its header; `none` when the
table may not have one. -/
def reopen? (item : Option Item) : Option Entries :=
  match item with
  | none => some []
  | some (.table shape entries) =>
    if !shape.inline && shape.implicit && !shape.dotted then some entries else none
  | some _ => none

/-- The item at the end of a path of tables. -/
def itemAt (last : String) : List String → Entries → Option Item
  | [], entries => find? last entries
  | key :: rest, entries =>
    match find? key entries with
    | some (.table _ inner) => itemAt last rest inner
    | some (.tables latest _) => itemAt last rest latest
    | _ => none

/-- Starts the table of a header. -/
def Progress.open? (progress : Progress) (repeated : Bool) (path : List String) (last : String) :
    Option Progress :=
  progress.close?.bind fun root =>
    let existing := itemAt last path root
    if repeated then
      (descend ⟨false, true, false⟩ (fun table => some table.entries) path
        ⟨⟨false, false, false⟩, root⟩).bind fun ready =>
          match existing with
          | none => some ⟨ready, path ++ [last], true, []⟩
          | some (.tables ..) => some ⟨ready, path ++ [last], true, []⟩
          | some _ => none
    else
      (reopen? existing).bind fun current =>
        (descend ⟨false, true, false⟩
          (fun table => some (table.entries.filter (·.1 ≠ last))) path
          ⟨⟨false, false, false⟩, root⟩).map fun ready =>
            ⟨ready, path ++ [last], false, current⟩

/-- A header line after its first bracket. -/
def header? (progress : Progress) (text : List Char) : Option (Progress × List Char) :=
  match text with
  | '[' :: rest =>
    (key? rest).bind fun ((path, last), after) =>
      match after with
      | ']' :: ']' :: more =>
        (lineEnd? more).bind fun next => (progress.open? true path last).map (·, next)
      | _ => none
  | _ =>
    (key? text).bind fun ((path, last), after) =>
      match after with
      | ']' :: more =>
        (lineEnd? more).bind fun next => (progress.open? false path last).map (·, next)
      | _ => none

/-- A line with a key and a value. -/
def pair? (progress : Progress) (text : List Char) : Option (Progress × List Char) :=
  (key? text).bind fun ((path, name), afterKey) =>
    match afterKey with
    | '=' :: rest =>
      (value? (2 * rest.length + 2) 0 (skipBlank rest)).bind fun item =>
        (lineEnd? item.2).bind fun next =>
          let table : Open := ⟨⟨false, false, false⟩, progress.current⟩
          (addPair false path name item.1 table).map fun entries =>
            ({ progress with current := entries }, next)
    | _ => none

/-- Reads lines; the first argument bounds their number. -/
def lines? : Nat → Progress → List Char → Option Entries
  | 0, _, _ => none
  | count + 1, progress, text =>
    match skipBlank text with
    | [] => progress.close?
    | '#' :: rest => (lineEnd? ('#' :: rest)).bind (lines? count progress)
    | '[' :: rest => (header? progress rest).bind fun parts => lines? count parts.1 parts.2
    | start =>
      match newline? start with
      | some rest => lines? count progress rest
      | none => (pair? progress start).bind fun parts => lines? count parts.1 parts.2

/-- The entries of a document. A byte order mark may stand before it. -/
def read? (text : String) : Option Entries :=
  let characters :=
    match text.toList with
    | '\uFEFF' :: rest => rest
    | rest => rest
  lines? (characters.length + 1) ⟨[], [], false, []⟩ characters

end TypedLiterals.Toml
