/-!
The tokens of a GraphQL text.

Between tokens stand ignored characters: blanks, line ends, commas, byte order marks and comments.
A text that is not valid GraphQL still falls into tokens; whether they make a document is for a
generation engine to say.
-/

namespace TypedLiterals.Graphql

/-- What the lexer tells apart: a token that stands for itself, a name or number, and a string. -/
inductive Token.Kind where
  | punctuator
  | word
  | string
deriving DecidableEq, Repr

/-- A token with the characters it was written with. -/
structure Token where
  kind : Token.Kind
  text : List Char
deriving DecidableEq, Repr

def isLineEnd (character : Char) : Bool :=
  character = '\n' || character = '\r'

def isBlankCharacter (character : Char) : Bool :=
  character = ' ' || character = '\t'

def byteOrderMark : Char := '\uFEFF'

/-- Characters that separate tokens and mean nothing else, the byte order mark apart. -/
def isSeparator (character : Char) : Bool :=
  isBlankCharacter character || isLineEnd character || character = ','

/-- The punctuators of one character. The only longer one is the spread `...`. -/
def isPunctuator (character : Char) : Bool :=
  ['!', '$', '&', '(', ')', ':', '=', '@', '[', ']', '{', '|', '}'].contains character

/-- Whether a text begins with the spread punctuator. -/
def startsSpread : List Char → Bool
  | '.' :: '.' :: '.' :: _ => true
  | _ => false

/-- Whether a word ends before these characters. A byte order mark does not end one. -/
def endsWord : List Char → Bool
  | [] => true
  | character :: rest =>
    isSeparator character || character = '#' || character = '\x22' || isPunctuator character ||
      startsSpread (character :: rest)

/-- The rest of a word, and what follows it. -/
def wordRest : List Char → List Char × List Char
  | [] => ([], [])
  | character :: rest =>
    if endsWord (character :: rest) then ([], character :: rest)
    else (character :: (wordRest rest).1, (wordRest rest).2)

/-- The rest of a block string after its opening quotes, with the closing quotes, and what follows.
An escaped triple quote does not close it; one that is never closed takes the whole text. -/
def blockStringRest : List Char → List Char × List Char
  | '\\' :: '\x22' :: '\x22' :: '\x22' :: rest =>
    ('\\' :: '\x22' :: '\x22' :: '\x22' :: (blockStringRest rest).1, (blockStringRest rest).2)
  | '\x22' :: '\x22' :: '\x22' :: rest => (['\x22', '\x22', '\x22'], rest)
  | character :: rest => (character :: (blockStringRest rest).1, (blockStringRest rest).2)
  | [] => ([], [])

/-- The rest of a one-line string after its opening quote, with the closing quote, and what follows.
A backslash takes the next character with it, and a line end stops a string that is not closed. -/
def lineStringRest : List Char → List Char × List Char
  | [] => ([], [])
  | '\\' :: character :: rest =>
    ('\\' :: character :: (lineStringRest rest).1, (lineStringRest rest).2)
  | '\x22' :: rest => (['\x22'], rest)
  | character :: rest =>
    if isLineEnd character then ([], character :: rest)
    else (character :: (lineStringRest rest).1, (lineStringRest rest).2)

/-- The rest of a string of either kind after its first quote, and what follows. -/
def stringRest : List Char → List Char × List Char
  | '\x22' :: '\x22' :: rest =>
    ('\x22' :: '\x22' :: (blockStringRest rest).1, (blockStringRest rest).2)
  | rest => lineStringRest rest

theorem wordRest_append (text : List Char) : (wordRest text).1 ++ (wordRest text).2 = text := by
  induction text with
  | nil => rfl
  | cons character rest ih =>
      simp only [wordRest]
      split <;> simp_all

theorem blockStringRest_append (text : List Char) :
    (blockStringRest text).1 ++ (blockStringRest text).2 = text := by
  fun_induction blockStringRest text <;> simp_all

theorem lineStringRest_append (text : List Char) :
    (lineStringRest text).1 ++ (lineStringRest text).2 = text := by
  fun_induction lineStringRest text <;> simp_all

theorem stringRest_append (text : List Char) :
    (stringRest text).1 ++ (stringRest text).2 = text := by
  unfold stringRest
  split
  · simp [blockStringRest_append]
  · exact lineStringRest_append _

/-- The tokens of a text whose first `skip` characters belong to what was read before. -/
def tokensFrom : (skip : Nat) → List Char → List Token
  | _, [] => []
  | skip + 1, _ :: rest => tokensFrom skip rest
  | 0, character :: rest =>
    if isSeparator character then tokensFrom 0 rest
    else if character = '#' then
      tokensFrom (rest.takeWhile fun next => !isLineEnd next).length rest
    else if character = '\x22' then
      ⟨.string, character :: (stringRest rest).1⟩ :: tokensFrom (stringRest rest).1.length rest
    else if startsSpread (character :: rest) then
      ⟨.punctuator, ['.', '.', '.']⟩ :: tokensFrom 2 rest
    else if isPunctuator character then ⟨.punctuator, [character]⟩ :: tokensFrom 0 rest
    else if character = byteOrderMark then tokensFrom 0 rest
    else ⟨.word, character :: (wordRest rest).1⟩ :: tokensFrom (wordRest rest).1.length rest

/-- The tokens of a text, in order. -/
def tokens (text : List Char) : List Token :=
  tokensFrom 0 text

end TypedLiterals.Graphql
