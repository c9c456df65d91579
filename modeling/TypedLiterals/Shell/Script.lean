/-!
Shell scripts: lists of simple commands with quotes, parameters and redirections.
-/

namespace TypedLiterals.Shell

/-- A piece of a word. What is quoted is neither split nor dropped when it is empty. -/
inductive Part where
  | text (characters : List Char) (quoted : Bool)
  | parameter (name : List Char) (quoted : Bool)
deriving Repr

abbrev Word := List Part

inductive RedirectKind where
  | write
  | append
  | read
  /-- To the same place as another descriptor. -/
  | duplicate
deriving DecidableEq, Repr

/-- Where a descriptor of a command is to lead. -/
structure Redirect where
  descriptor : Nat
  kind : RedirectKind
  target : Word
deriving Repr

/-- A simple command: its words and redirections. -/
structure Command where
  words : List Word
  redirects : List Redirect
deriving Repr, Inhabited

/-- When a pipeline runs: always, or by the outcome of the one before. -/
inductive Link where
  | always
  | onSuccess
  | onFailure
deriving DecidableEq, Repr

/-- Commands of which each reads what the one before it writes. -/
structure Pipeline where
  link : Link
  commands : List Command
deriving Repr

/-! ## Tokens -/

/-- The lexical elements of a script. -/
inductive Token where
  | word (parts : Word)
  /-- An operator, with the descriptor number written in front of it. -/
  | operator (text : String) (descriptor : Option Nat)
  | newline
deriving Repr

def isNameCharacter (character : Char) : Bool :=
  character.isAlphanum || character = '_'

/-- The parameter that follows a dollar sign, and the number of characters in it. -/
def parameter? : List Char → Option (List Char × Nat)
  | '{' :: rest =>
    let name := rest.takeWhile (· ≠ '}')
    if (rest.drop name.length).head? = some '}' then some (name, name.length + 2) else none
  | character :: rest =>
    if character.isDigit || ['$', '?', '@', '*', '#', '!'].contains character then some ([character], 1)
    else if isNameCharacter character then
      let name := (character :: rest).takeWhile isNameCharacter
      some (name, name.length)
    else none
  | [] => none

/-- Puts a character in front of the text that follows. -/
def consText (character : Char) (quoted : Bool) : Word → Word
  | .text characters other :: rest =>
    if quoted = other then .text (character :: characters) quoted :: rest
    else .text [character] quoted :: .text characters other :: rest
  | rest => .text [character] quoted :: rest

/-- What is being read inside a word. -/
inductive Quote where
  | none
  | single
  | double
deriving DecidableEq

/-- Reads a word; the first `skip` characters belong to a parameter that has been read. -/
def readWord (quote : Quote) : (skip : Nat) → List Char → Word × List Char
  | _, [] => ([], [])
  | skip + 1, _ :: rest => readWord quote skip rest
  | 0, character :: rest =>
    let keep (next : Word × List Char) : Word × List Char :=
      (consText character (quote ≠ .none) next.1, next.2)
    match quote with
    | .single =>
      if character = '\x27' then
        let next := readWord .none 0 rest
        (.text [] true :: next.1, next.2)
      else keep (readWord .single 0 rest)
    | .double =>
      if character = '\x22' then
        let next := readWord .none 0 rest
        (.text [] true :: next.1, next.2)
      else if character = '$' then
        match parameter? rest with
        | some (name, count) =>
          let next := readWord .double count rest
          (.parameter name true :: next.1, next.2)
        | none => keep (readWord .double 0 rest)
      else if character = '\\' then
        match rest with
        | escaped :: _ =>
          if ['$', '\x60', '\x22', '\\'].contains escaped then
            let next := readWord .double 1 rest
            (consText escaped true next.1, next.2)
          else keep (readWord .double 0 rest)
        | [] => keep (readWord .double 0 rest)
      else keep (readWord .double 0 rest)
    | .none =>
      if character = '\x27' then readWord .single 0 rest
      else if character = '\x22' then readWord .double 0 rest
      else if character = '$' then
        match parameter? rest with
        | some (name, count) =>
          let next := readWord .none count rest
          (.parameter name false :: next.1, next.2)
        | none => keep (readWord .none 0 rest)
      else if character = '\\' then
        match rest with
        | escaped :: _ =>
          let next := readWord .none 1 rest
          (consText escaped true next.1, next.2)
        | [] => keep (readWord .none 0 rest)
      else if [' ', '\t', '\n', ';', '&', '|', '<', '>', '(', ')'].contains character then
        ([], character :: rest)
      else keep (readWord .none 0 rest)

/-- The operator that a text starts with. -/
def operator? : List Char → Option String
  | '&' :: '&' :: _ => some "&&"
  | '|' :: '|' :: _ => some "||"
  | '>' :: '>' :: _ => some ">>"
  | '>' :: '&' :: _ => some ">&"
  | '<' :: '&' :: _ => some "<&"
  | character :: _ =>
    if [';', '&', '|', '<', '>', '(', ')'].contains character then some (String.ofList [character])
    else none
  | [] => none

/-- The tokens of a script; the first argument bounds their number. -/
def tokens : Nat → List Char → List Token
  | 0, _ => []
  | count + 1, text =>
    match text.dropWhile fun character => character = ' ' || character = '\t' with
    | [] => []
    | '\n' :: rest => .newline :: tokens count rest
    | '#' :: rest => tokens count (rest.dropWhile (· ≠ '\n'))
    | start =>
      let digits := start.takeWhile Char.isDigit
      let behind := start.drop digits.length
      match operator? start with
      | some text => .operator text none :: tokens count (start.drop text.length)
      | none =>
        match digits, behind.head? with
        | [digit], some '>' =>
          let text := (operator? behind).getD ">"
          .operator text (some (digit.toNat - '0'.toNat)) :: tokens count (behind.drop text.length)
        | [digit], some '<' =>
          let text := (operator? behind).getD "<"
          .operator text (some (digit.toNat - '0'.toNat)) :: tokens count (behind.drop text.length)
        | _, _ =>
          let (parts, rest) := readWord .none 0 start
          .word parts :: tokens count rest

/-! ## Commands -/

def redirectOf? (operator : String) (descriptor : Option Nat) (target : Word) : Option Redirect :=
  match operator with
  | ">" => some ⟨descriptor.getD 1, .write, target⟩
  | ">>" => some ⟨descriptor.getD 1, .append, target⟩
  | "<" => some ⟨descriptor.getD 0, .read, target⟩
  | ">&" => some ⟨descriptor.getD 1, .duplicate, target⟩
  | _ => none

/-- One command from the front of a token list, and the tokens after it. -/
def readCommand : List Token → Option (Command × List Token)
  | .operator text descriptor :: .word target :: rest =>
    match redirectOf? text descriptor target with
    | some redirect =>
      (readCommand rest).map fun parts =>
        (⟨parts.1.words, redirect :: parts.1.redirects⟩, parts.2)
    | none => some (⟨[], []⟩, .operator text descriptor :: .word target :: rest)
  | .word parts :: rest =>
    (readCommand rest).map fun later => (⟨parts :: later.1.words, later.1.redirects⟩, later.2)
  | rest => some (⟨[], []⟩, rest)

def Command.isEmpty (command : Command) : Bool :=
  command.words.isEmpty && command.redirects.isEmpty

/-- The pipelines of a token list; the first argument bounds the number of commands. -/
def readPipelines : Nat → Link → List Command → List Token → Option (List Pipeline)
  | 0, _, _, _ => none
  | count + 1, link, before, list =>
    (readCommand list).bind fun (command, rest) =>
      let commands := before ++ [command]
      let finished : List Pipeline := if command.isEmpty then [] else [⟨link, commands⟩]
      match rest with
      | [] => if command.isEmpty && (!before.isEmpty || link ≠ .always) then none else some finished
      | .newline :: more =>
        if command.isEmpty then readPipelines count link before more
        else (readPipelines count .always [] more).map (finished ++ ·)
      | .operator text _ :: more =>
        if command.isEmpty then none
        else if text = ";" then (readPipelines count .always [] more).map (finished ++ ·)
        else if text = "&&" then (readPipelines count .onSuccess [] more).map (finished ++ ·)
        else if text = "||" then (readPipelines count .onFailure [] more).map (finished ++ ·)
        else if text = "|" then readPipelines count link commands more
        else none
      | _ => none

/-- The pipelines of a script, when it is one of this kind. -/
def parse? (script : String) : Option (List Pipeline) :=
  let list := tokens (script.length + 1) script.toList
  readPipelines (list.length + 1) .always [] list

end TypedLiterals.Shell
