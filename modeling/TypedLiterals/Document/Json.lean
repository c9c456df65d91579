import TypedLiterals.Text.Bytes
import TypedLiterals.Text.Character

/-!
JSON documents.

`pretty` writes a value over several lines, two spaces for each level. `read` takes the documents that
hold objects, arrays and strings only; the others are read by nobody here.
-/

namespace TypedLiterals

/-- A JSON document. The members of an object keep their order. -/
inductive JsonValue where
  | bool (value : Bool)
  | number (value : Nat)
  | string (value : String)
  | array (items : List JsonValue)
  | object (members : List (String × JsonValue))
deriving Repr

namespace JsonValue

/-! ## Writing -/

def hexDigit (value : Nat) : Char :=
  ['0', '1', '2', '3', '4', '5', '6', '7', '8', '9', 'a', 'b', 'c', 'd', 'e', 'f'].getD value '0'

/-- A character of a string as it is written between quotes. -/
def escape (character : Char) : List Char :=
  if character = '\x22' then ['\\', '\x22']
  else if character = '\\' then ['\\', '\\']
  else if character = '\x08' then ['\\', 'b']
  else if character = '\x0c' then ['\\', 'f']
  else if character = '\n' then ['\\', 'n']
  else if character = '\r' then ['\\', 'r']
  else if character = '\t' then ['\\', 't']
  else if character.toNat < 0x20 then
    ['\\', 'u', '0', '0', hexDigit (character.toNat / 16), hexDigit (character.toNat % 16)]
  else [character]

/-- A text between quotes, with what must be escaped escaped. -/
def quoted (text : String) : List Char :=
  '\x22' :: (Text.characters text).flatMap escape ++ ['\x22']

/-- The end of a line and the indentation of the next one. -/
def lineBreak (level : Nat) : List Char :=
  '\n' :: List.replicate (2 * level) ' '

mutual

/-- A value whose first line has the given level. -/
def prettyAt (level : Nat) : JsonValue → List Char
  | bool true => "true".toList
  | bool false => "false".toList
  | number value => (toString value).toList
  | string value => quoted value
  | array [] => ['[', ']']
  | array (first :: rest) =>
    '[' :: lineBreak (level + 1) ++ prettyAt (level + 1) first ++ prettyItems (level + 1) rest ++
      lineBreak level ++ [']']
  | object [] => ['{', '}']
  | object ((key, first) :: rest) =>
    '{' :: lineBreak (level + 1) ++ quoted key ++ [':', ' '] ++ prettyAt (level + 1) first ++
      prettyMembers (level + 1) rest ++ lineBreak level ++ ['}']

/-- The items of an array after its first. -/
def prettyItems (level : Nat) : List JsonValue → List Char
  | [] => []
  | item :: rest => ',' :: lineBreak level ++ prettyAt level item ++ prettyItems level rest

/-- The members of an object after its first. -/
def prettyMembers (level : Nat) : List (String × JsonValue) → List Char
  | [] => []
  | (key, value) :: rest =>
    ',' :: lineBreak level ++ quoted key ++ [':', ' '] ++ prettyAt level value ++
      prettyMembers level rest

end

/-- A document on several lines, each level indented by two blanks more. -/
def pretty (value : JsonValue) : String :=
  String.ofList (prettyAt 0 value)

/-! ## Reading -/

def isBlank (character : Char) : Bool :=
  character = ' ' || character = '\t' || character = '\n' || character = '\r'

def skipBlank (text : List Char) : List Char :=
  text.dropWhile isBlank

/-- The number that four hexadecimal digits stand for. -/
def hexNumber? : List Char → Option Nat
  | [a, b, c, d] =>
    if [a, b, c, d].all Text.isHexDigit then
      some (((Text.hexValue a * 16 + Text.hexValue b) * 16 + Text.hexValue c) * 16 + Text.hexValue d)
    else none
  | _ => none

/-- The character that an escape after its backslash stands for, and the number of characters in the
escape. Two halves of a surrogate pair make one character, and neither stands alone. -/
def unescape? : List Char → Option (Char × Nat)
  | '\x22' :: _ => some ('\x22', 1)
  | '\\' :: _ => some ('\\', 1)
  | '/' :: _ => some ('/', 1)
  | 'b' :: _ => some ('\x08', 1)
  | 'f' :: _ => some ('\x0c', 1)
  | 'n' :: _ => some ('\n', 1)
  | 'r' :: _ => some ('\r', 1)
  | 't' :: _ => some ('\t', 1)
  | 'u' :: rest =>
    (hexNumber? (rest.take 4)).bind fun code =>
      if 0xD800 ≤ code ∧ code ≤ 0xDBFF then
        match rest.drop 4 with
        | '\\' :: 'u' :: more =>
          (hexNumber? (more.take 4)).bind fun low =>
            if 0xDC00 ≤ low ∧ low ≤ 0xDFFF then
              some (Char.ofNat (0x10000 + (code - 0xD800) * 0x400 + (low - 0xDC00)), 11)
            else none
        | _ => none
      else if 0xDC00 ≤ code ∧ code ≤ 0xDFFF then none
      else some (Char.ofNat code, 5)
  | _ => none

/-- The characters of a string after its opening quote, and what follows the closing one. The first
`skip` characters belong to an escape that has been read. -/
def readString : (skip : Nat) → List Char → Option (List Char × List Char)
  | _, [] => none
  | skip + 1, _ :: rest => readString skip rest
  | 0, character :: rest =>
    if character = '\x22' then some ([], rest)
    else if character = '\\' then
      (unescape? rest).bind fun escaped =>
        (readString escaped.2 rest).map fun parts => (escaped.1 :: parts.1, parts.2)
    else if character.toNat < 0x20 then none
    else (readString 0 rest).map fun parts => (character :: parts.1, parts.2)

mutual

/-- The value that a text starts with, and what follows it. The first argument bounds the number of
steps. -/
def readValue : Nat → List Char → Option (JsonValue × List Char)
  | 0, _ => none
  | fuel + 1, text =>
    match skipBlank text with
    | '\x22' :: rest =>
      (readString 0 rest).map fun parts => (.string (String.ofList parts.1), parts.2)
    | '[' :: rest =>
      match skipBlank rest with
      | ']' :: after => some (.array [], after)
      | _ =>
        (readValue fuel rest).bind fun first =>
          (readItems fuel first.2).map fun later => (.array (first.1 :: later.1), later.2)
    | '{' :: rest =>
      match skipBlank rest with
      | '}' :: after => some (.object [], after)
      | _ =>
        (readMember fuel rest).bind fun first =>
          (readMembers fuel first.2).map fun later => (.object (first.1 :: later.1), later.2)
    | _ => none

/-- The items of an array after its first, up to the closing bracket. -/
def readItems : Nat → List Char → Option (List JsonValue × List Char)
  | 0, _ => none
  | fuel + 1, text =>
    match skipBlank text with
    | ']' :: after => some ([], after)
    | ',' :: rest =>
      (readValue fuel rest).bind fun item =>
        (readItems fuel item.2).map fun later => (item.1 :: later.1, later.2)
    | _ => none

/-- One member of an object. -/
def readMember : Nat → List Char → Option ((String × JsonValue) × List Char)
  | 0, _ => none
  | fuel + 1, text =>
    match skipBlank text with
    | '\x22' :: rest =>
      (readString 0 rest).bind fun key =>
        match skipBlank key.2 with
        | ':' :: after =>
          (readValue fuel after).map fun value => ((String.ofList key.1, value.1), value.2)
        | _ => none
    | _ => none

/-- The members of an object after its first, up to the closing brace. -/
def readMembers : Nat → List Char → Option (List (String × JsonValue) × List Char)
  | 0, _ => none
  | fuel + 1, text =>
    match skipBlank text with
    | '}' :: after => some ([], after)
    | ',' :: rest =>
      (readMember fuel rest).bind fun member =>
        (readMembers fuel member.2).map fun later => (member.1 :: later.1, later.2)
    | _ => none

end

/-- The value of a whole text; nothing but blanks may follow it. -/
def read (text : String) : Option JsonValue :=
  let characters := Text.characters text
  match readValue (2 * characters.length + 2) characters with
  | some (value, rest) => if skipBlank rest = [] then some value else none
  | none => none

end JsonValue

end TypedLiterals
