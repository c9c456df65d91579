import Mathlib.Data.List.Basic
import TypedLiterals.Graphql.BlockString

/-!
Lexically valid texts.

`Token.Valid` says by the lexical grammar how a token may be written, and `Rendering` which texts a list
of tokens may be written as: the tokens in order, with gaps of ignored characters around them. The lexer
reads every rendering back as the tokens that it was made from.
-/

namespace TypedLiterals.Graphql

/-! ## Words -/

def isNameStart (character : Char) : Bool :=
  character.isAlpha || character = '_'

def isNameContinue (character : Char) : Bool :=
  character.isAlphanum || character = '_'

/-- One decimal digit or more. -/
def Digits (text : List Char) : Prop :=
  text ≠ [] ∧ ∀ character ∈ text, character.isDigit = true

/-- A whole number without a sign. Of several digits the first is not a zero. -/
def Whole (text : List Char) : Prop :=
  Digits text ∧ (text.head? = some '0' → text = ['0'])

/-- The part of a number after a dot, or nothing. -/
inductive Fraction : List Char → Prop
  | absent : Fraction []
  | digits {text : List Char} : Digits text → Fraction ('.' :: text)

/-- The power of ten that a number is multiplied by, or nothing. -/
inductive Exponent : List Char → Prop
  | absent : Exponent []
  | plain {mark : Char} {text : List Char} : mark ∈ ['e', 'E'] → Digits text → Exponent (mark :: text)
  | signed {mark sign : Char} {text : List Char} :
      mark ∈ ['e', 'E'] → sign ∈ ['+', '-'] → Digits text → Exponent (mark :: sign :: text)

inductive Unsigned : List Char → Prop
  | parts {whole fraction exponent : List Char} :
      Whole whole → Fraction fraction → Exponent exponent → Unsigned (whole ++ (fraction ++ exponent))

inductive Number : List Char → Prop
  | positive {text : List Char} : Unsigned text → Number text
  | negative {text : List Char} : Unsigned text → Number ('-' :: text)

/-! ## Strings -/

/-- What may stand between the quotes of a one-line string. -/
inductive LineBody : List Char → Prop
  | nil : LineBody []
  | escape {character : Char} {rest : List Char} :
      LineBody rest → LineBody ('\\' :: character :: rest)
  | plain {character : Char} {rest : List Char} :
      character ≠ '\x22' → character ≠ '\\' → isLineEnd character = false →
      LineBody rest → LineBody (character :: rest)

namespace BlockString

/-- A text in which no closing quotes begin when `after` follows it. Escaped quotes close nothing. -/
inductive Unclosed (after : List Char) : List Char → Prop
  | nil : Unclosed after []
  | escape {rest : List Char} : Unclosed after rest → Unclosed after (escapedTripleQuote ++ rest)
  | plain {character : Char} {rest : List Char} :
      ¬ tripleQuote <+: character :: rest ++ after →
      ¬ escapedTripleQuote <+: character :: rest ++ after →
      Unclosed after rest → Unclosed after (character :: rest)

/-- What may stand between the quotes of a block string. -/
def ValidBody (body : List Char) : Prop :=
  Unclosed tripleQuote body

/-- A block string with the given body. -/
def quote (body : List Char) : List Char :=
  tripleQuote ++ body ++ tripleQuote

end BlockString

/-! ## Tokens and gaps -/

inductive Token.Valid : Token → Prop
  | spread : Token.Valid ⟨.punctuator, ['.', '.', '.']⟩
  | punctuator {character : Char} :
      isPunctuator character = true → Token.Valid ⟨.punctuator, [character]⟩
  | name {first : Char} {rest : List Char} :
      isNameStart first = true → (∀ character ∈ rest, isNameContinue character = true) →
      Token.Valid ⟨.word, first :: rest⟩
  | number {text : List Char} : Number text → Token.Valid ⟨.word, text⟩
  | lineString {body : List Char} :
      LineBody body → Token.Valid ⟨.string, '\x22' :: (body ++ ['\x22'])⟩
  | blockString {body : List Char} :
      BlockString.ValidBody body → Token.Valid ⟨.string, BlockString.quote body⟩

/-- Ignored characters. A comment ends with its line. -/
inductive Gap : List Char → Prop
  | nil : Gap []
  | separator {character : Char} {rest : List Char} :
      isSeparator character = true → Gap rest → Gap (character :: rest)
  | comment {text rest : List Char} {stop : Char} :
      (∀ character ∈ text, isLineEnd character = false) → isLineEnd stop = true →
      Gap rest → Gap ('#' :: (text ++ stop :: rest))

/-- The texts that tokens may be written as after a token of the given kind. Two tokens in a row keep
apart unless one of them is a punctuator. -/
inductive Rendering : (before : Token.Kind) → List Token → List Char → Prop
  | done {before : Token.Kind} {gap : List Char} : Gap gap → Rendering before [] gap
  | token {before : Token.Kind} {gap text : List Char} {token : Token} {rest : List Token} :
      Gap gap → (before ≠ .punctuator → token.kind ≠ .punctuator → gap ≠ []) → token.Valid →
      Rendering token.kind rest text → Rendering before (token :: rest) (gap ++ (token.text ++ text))

/-- Whether a text is the given tokens with gaps between and around them. -/
def Renders (list : List Token) (text : String) : Prop :=
  Rendering .punctuator list text.toList

/-! ## Reading words -/

/-- The characters that end a word or may begin what ends it, and the byte order mark. -/
def wordBreaks : List Char :=
  [' ', '\t', '\n', '\r', ',', '#', '\x22', '.', '!', '$', '&', '(', ')', ':', '=', '@', '[', ']', '{', '|',
    '}', byteOrderMark]

/-- A word or the rest of one that is read whole wherever a word may end behind it. -/
def ReadsWhole (word : List Char) : Prop :=
  ∀ after, endsWord after = true → wordRest (word ++ after) = (word, after)

theorem endsWord_eq_false {character : Char} (rest : List Char) (inside : character ∉ wordBreaks) :
    endsWord (character :: rest) = false := by
  simp only [wordBreaks, List.mem_cons, List.not_mem_nil, or_false, not_or] at inside
  simp [endsWord, isSeparator, isBlankCharacter, isLineEnd, isPunctuator, startsSpread, inside]

theorem readsWhole_nil : ReadsWhole [] := by
  intro after ends
  cases after with
  | nil => rfl
  | cons character rest => simp [wordRest, ends]

theorem ReadsWhole.cons {character : Char} {word : List Char} (inside : character ∉ wordBreaks)
    (whole : ReadsWhole word) : ReadsWhole (character :: word) := by
  intro after ends
  rw [List.cons_append, wordRest, endsWord_eq_false _ inside, whole after ends]
  rfl

theorem ReadsWhole.append {front word : List Char} (inside : ∀ character ∈ front, character ∉ wordBreaks)
    (whole : ReadsWhole word) : ReadsWhole (front ++ word) := by
  induction front with
  | nil => exact whole
  | cons character rest ih =>
      refine ReadsWhole.cons (inside character List.mem_cons_self) (ih ?_)
      exact fun other member => inside other (List.mem_cons_of_mem _ member)

theorem not_mem_wordBreaks_of_nameContinue {character : Char} (continues : isNameContinue character = true) :
    character ∉ wordBreaks := by
  have breaks : wordBreaks.all (isNameContinue · = false) = true := by decide
  intro member
  have stops := List.all_eq_true.mp breaks character member
  simp [continues] at stops

theorem not_mem_wordBreaks_of_digit {character : Char} (digit : character.isDigit = true) :
    character ∉ wordBreaks :=
  not_mem_wordBreaks_of_nameContinue (by simp [isNameContinue, Char.isAlphanum, digit])

theorem isNameContinue_of_start {character : Char} (start : isNameStart character = true) :
    isNameContinue character = true := by
  simp only [isNameStart, Bool.or_eq_true] at start
  rcases start with letter | underscore
  · simp [isNameContinue, Char.isAlphanum, letter]
  · simp [isNameContinue, underscore]

theorem Digits.readsWhole {front word : List Char} (digits : Digits front) (whole : ReadsWhole word) :
    ReadsWhole (front ++ word) :=
  whole.append fun character member => not_mem_wordBreaks_of_digit (digits.2 character member)

theorem Exponent.readsWhole {text : List Char} (exponent : Exponent text) : ReadsWhole text := by
  have marks : ∀ mark ∈ ['e', 'E'], mark ∉ wordBreaks := by simp [wordBreaks, byteOrderMark]
  have signs : ∀ sign ∈ ['+', '-'], sign ∉ wordBreaks := by simp [wordBreaks, byteOrderMark]
  cases exponent with
  | absent => exact readsWhole_nil
  | plain mark digits =>
      exact .cons (marks _ mark) (by simpa using digits.readsWhole readsWhole_nil)
  | signed mark sign digits =>
      exact .cons (marks _ mark) (.cons (signs _ sign) (by simpa using digits.readsWhole readsWhole_nil))

/-- The dot of a fraction has a digit behind it, so it begins no spread. -/
theorem Fraction.readsWhole {text word : List Char} (fraction : Fraction text) (whole : ReadsWhole word) :
    ReadsWhole (text ++ word) := by
  cases fraction with
  | absent => exact whole
  | @digits text digits =>
      intro after ends
      have rest := digits.readsWhole whole after ends
      obtain ⟨first, others, rfl⟩ := List.exists_cons_of_ne_nil digits.1
      have different : first ≠ '.' := by
        intro same
        have digit := digits.2 first List.mem_cons_self
        simp [same] at digit
      have goesOn : endsWord ('.' :: (first :: others ++ word ++ after)) = false := by
        simp [endsWord, isSeparator, isBlankCharacter, isLineEnd, isPunctuator, startsSpread, different]
      rw [List.cons_append, List.cons_append, wordRest, goesOn, rest]
      rfl

theorem startsSpread_iff {text : List Char} :
    startsSpread text = true ↔ ['.', '.', '.'] <+: text := by
  constructor
  · intro starts
    unfold startsSpread at starts
    split at starts
    · exact ⟨_, rfl⟩
    · contradiction
  · rintro ⟨rest, rfl⟩
    rfl

theorem endsWord_spread {character : Char} {rest after : List Char}
    (ends : endsWord (character :: (rest ++ after)) = true) :
    endsWord (character :: (rest ++ ['.', '.', '.'])) = true := by
  simp only [endsWord, Bool.or_eq_true, startsSpread_iff] at ends ⊢
  refine ends.imp_right fun spread => ?_
  rcases rest with _ | ⟨second, _ | ⟨third, rest⟩⟩ <;>
    simp only [List.nil_append, List.cons_append, List.cons_prefix_cons, List.nil_prefix, and_true] at spread ⊢
  · exact spread.1
  · exact ⟨spread.1, spread.2.1⟩
  · exact spread

theorem ReadsWhole.uncons {character : Char} {word : List Char}
    (whole : ReadsWhole (character :: word)) (after : List Char) :
    endsWord (character :: (word ++ after)) = false ∧ ReadsWhole word := by
  have goesOn (after : List Char) (ends : endsWord after = true) :
      endsWord (character :: (word ++ after)) = false ∧ wordRest (word ++ after) = (word, after) := by
    have read := whole after ends
    rw [List.cons_append, wordRest] at read
    split at read
    · simp at read
    · rename_i inside
      simp only [Prod.mk.injEq, List.cons.injEq, true_and] at read
      exact ⟨by simpa using inside, Prod.ext read.1 read.2⟩
  refine ⟨?_, fun after ends => (goesOn after ends).2⟩
  have spread := (goesOn ['.', '.', '.'] rfl).1
  by_contra ends
  simp [endsWord_spread (by simpa using ends)] at spread

theorem ReadsWhole.wordRest {word : List Char} (whole : ReadsWhole word) (after : List Char) :
    wordRest (word ++ after) = (word ++ (wordRest after).1, (wordRest after).2) := by
  induction word with
  | nil => rfl
  | cons character rest ih =>
      have inside := whole.uncons after
      rw [List.cons_append, Graphql.wordRest, inside.1, ih inside.2]
      rfl

/-- What the lexer needs of a word: its first character begins no other token, and the rest is read
whole. -/
def WordText (text : List Char) : Prop :=
  ∃ first rest, text = first :: rest ∧ first ∉ wordBreaks ∧ ReadsWhole rest

theorem WordText.wordRest {word : List Char} (valid : WordText word) (after : List Char) :
    wordRest (word ++ after) = (word ++ (wordRest after).1, (wordRest after).2) := by
  obtain ⟨first, rest, rfl, inside, whole⟩ := valid
  exact (whole.cons inside).wordRest after

theorem Unsigned.wordText {text : List Char} (number : Unsigned text) : WordText text := by
  cases number with
  | @parts whole fraction exponent digits fractional power =>
      obtain ⟨first, others, rfl⟩ := List.exists_cons_of_ne_nil digits.1.1
      refine ⟨first, others ++ (fraction ++ exponent), rfl, ?_, ?_⟩
      · exact not_mem_wordBreaks_of_digit (digits.1.2 first List.mem_cons_self)
      · refine (fractional.readsWhole power.readsWhole).append fun character member => ?_
        exact not_mem_wordBreaks_of_digit (digits.1.2 character (List.mem_cons_of_mem _ member))

theorem Number.wordText {text : List Char} (number : Number text) : WordText text := by
  cases number with
  | positive unsigned => exact unsigned.wordText
  | negative unsigned =>
      obtain ⟨first, rest, rfl, inside, whole⟩ := unsigned.wordText
      exact ⟨'-', first :: rest, rfl, by decide, whole.cons inside⟩

theorem wordText_of_name {first : Char} {rest : List Char} (start : isNameStart first = true)
    (continues : ∀ character ∈ rest, isNameContinue character = true) : WordText (first :: rest) := by
  refine ⟨first, rest, rfl, not_mem_wordBreaks_of_nameContinue (isNameContinue_of_start start), ?_⟩
  have whole := readsWhole_nil.append fun character member =>
    not_mem_wordBreaks_of_nameContinue (continues character member)
  simpa using whole

/-! ## Reading strings -/

theorem LineBody.lineStringRest {body : List Char} (valid : LineBody body) (after : List Char) :
    lineStringRest (body ++ '\x22' :: after) = (body ++ ['\x22'], after) := by
  induction valid with
  | nil => rfl
  | escape _ ih => simp [Graphql.lineStringRest, ih]
  | plain noQuote noEscape inLine _ ih =>
      simp [Graphql.lineStringRest, noEscape, inLine, ih]

/-- An empty string followed by a quote would open a block string. -/
theorem LineBody.stringRest {body after : List Char} (valid : LineBody body)
    (ends : body = [] → after.head? ≠ some '\x22') :
    stringRest (body ++ '\x22' :: after) = (body ++ ['\x22'], after) := by
  have read := valid.lineStringRest after
  cases valid with
  | nil =>
      cases after with
      | nil => rfl
      | cons character rest =>
          have different : character ≠ '\x22' := fun same => ends rfl (by rw [same]; rfl)
          simpa [Graphql.stringRest, different] using read
  | escape _ => simpa [Graphql.stringRest] using read
  | plain noQuote _ _ _ => simpa [Graphql.stringRest, noQuote] using read

namespace BlockString

/-- Nothing behind the closing quotes has a part in where the body ends. -/
theorem prefix_quotes_append {pattern text after : List Char} {character : Char}
    (short : pattern.length ≤ 4) :
    pattern <+: character :: (text ++ (tripleQuote ++ after)) ↔
      pattern <+: character :: text ++ tripleQuote := by
  rw [← List.cons_append, ← List.append_assoc]
  constructor
  · intro begins
    apply List.prefix_of_prefix_length_le begins (List.prefix_append _ _)
    simp only [List.cons_append, List.length_cons, List.length_append, tripleQuote, List.length_nil]
    omega
  · exact fun begins => begins.trans (List.prefix_append _ _)

theorem blockStringRest_plain {character : Char} {text : List Char}
    (noQuotes : ¬ tripleQuote <+: character :: text)
    (noEscape : ¬ escapedTripleQuote <+: character :: text) :
    blockStringRest (character :: text) =
      (character :: (blockStringRest text).1, (blockStringRest text).2) := by
  rw [blockStringRest]
  · rintro rest rfl rfl
    exact noEscape ⟨rest, rfl⟩
  · rintro rest rfl rfl
    exact noQuotes ⟨rest, rfl⟩

theorem ValidBody.blockStringRest {body : List Char} (valid : ValidBody body) (after : List Char) :
    blockStringRest (body ++ (tripleQuote ++ after)) = (body ++ tripleQuote, after) := by
  induction valid with
  | nil => rfl
  | escape _ ih =>
      simp only [escapedTripleQuote, tripleQuote, List.cons_append, List.nil_append] at ih ⊢
      simp [Graphql.blockStringRest, ih]
  | @plain character rest noQuotes noEscape _ ih =>
      rw [← prefix_quotes_append (by decide)] at noQuotes noEscape
      rw [List.cons_append, blockStringRest_plain noQuotes noEscape, ih]
      rfl

end BlockString

/-! ## Reading tokens -/

/-- What must stand behind a token of some kind for it to be read alone. -/
def EndsToken (kind : Token.Kind) (after : List Char) : Prop :=
  kind ≠ .punctuator → endsWord after = true ∧ after.head? ≠ some '\x22'

theorem tokensFrom_length (front text : List Char) :
    tokensFrom front.length (front ++ text) = tokensFrom 0 text := by
  induction front with
  | nil => rfl
  | cons character rest ih => exact ih

theorem WordText.tokensFrom {word : List Char} (valid : WordText word) (after : List Char) :
    tokensFrom 0 (word ++ after) =
      ⟨.word, word ++ (Graphql.wordRest after).1⟩ :: tokensFrom 0 (Graphql.wordRest after).2 := by
  obtain ⟨first, rest, rfl, inside, whole⟩ := valid
  have read := whole.wordRest after
  simp only [wordBreaks, List.mem_cons, List.not_mem_nil, or_false, not_or] at inside
  have notSeparator : isSeparator first = false := by
    simp [isSeparator, isBlankCharacter, isLineEnd, inside]
  have notPunctuator : isPunctuator first = false := by simp [isPunctuator, inside]
  have notSpread : startsSpread (first :: (rest ++ after)) = false := by simp [startsSpread, inside]
  have rejoined : rest ++ after = (rest ++ (Graphql.wordRest after).1) ++ (Graphql.wordRest after).2 := by
    rw [List.append_assoc, wordRest_append]
  simp only [List.cons_append, Graphql.tokensFrom, notSeparator, notPunctuator, notSpread, inside, read]
  simp only [Bool.false_eq_true, if_false]
  rw [rejoined, tokensFrom_length]

theorem tokensFrom_string {rest after : List Char} (read : stringRest (rest ++ after) = (rest, after)) :
    tokensFrom 0 ('\x22' :: rest ++ after) = ⟨.string, '\x22' :: rest⟩ :: tokensFrom 0 after := by
  have notSeparator : isSeparator '\x22' = false := by decide
  simp [tokensFrom, notSeparator, read, tokensFrom_length]

theorem isPunctuator_excludes {character : Char} (punctuator : isPunctuator character = true) :
    isSeparator character = false ∧ character ≠ '#' ∧ character ≠ '\x22' ∧ character ≠ '.' := by
  simp only [isPunctuator, List.contains_iff_mem, List.mem_cons, List.not_mem_nil, or_false] at punctuator
  rcases punctuator with
    rfl | rfl | rfl | rfl | rfl | rfl | rfl | rfl | rfl | rfl | rfl | rfl | rfl <;> decide

theorem tokensFrom_punctuator {character : Char} (after : List Char)
    (punctuator : isPunctuator character = true) :
    tokensFrom 0 (character :: after) = ⟨.punctuator, [character]⟩ :: tokensFrom 0 after := by
  obtain ⟨notSeparator, noComment, noQuote, noDot⟩ := isPunctuator_excludes punctuator
  have notSpread : startsSpread (character :: after) = false := by simp [startsSpread, noDot]
  simp [tokensFrom, notSeparator, noComment, noQuote, notSpread, punctuator]

theorem Token.Valid.wordText {token : Token} (valid : token.Valid) (word : token.kind = .word) :
    WordText token.text := by
  cases valid with
  | name start continues => exact wordText_of_name start continues
  | number number => exact number.wordText
  | spread | punctuator | lineString | blockString => contradiction

/-- A token that is no word is read alone where it ends. -/
theorem tokensFrom_other {token : Token} {after : List Char} (valid : token.Valid)
    (other : token.kind ≠ .word)
    (ends : token.text = ['\x22', '\x22'] → after.head? ≠ some '\x22') :
    tokensFrom 0 (token.text ++ after) = token :: tokensFrom 0 after := by
  cases valid with
  | spread => rfl
  | punctuator punctuator => exact tokensFrom_punctuator after punctuator
  | name | number => contradiction
  | @lineString body line =>
      apply tokensFrom_string
      simpa using line.stringRest fun empty => ends (by simp [empty])
  | @blockString body block =>
      have read := block.blockStringRest after
      apply @tokensFrom_string ('\x22' :: '\x22' :: (body ++ BlockString.tripleQuote))
      simp [Graphql.stringRest, read]

theorem Token.Valid.tokensFrom {token : Token} (valid : token.Valid) {after : List Char}
    (ends : EndsToken token.kind after) :
    tokensFrom 0 (token.text ++ after) = token :: tokensFrom 0 after := by
  obtain ⟨kind, text⟩ := token
  cases kind with
  | word =>
      have read : wordRest after = ([], after) := readsWhole_nil after (ends nofun).1
      rw [(valid.wordText rfl).tokensFrom, read, List.append_nil]
  | string => exact tokensFrom_other valid nofun fun _ => (ends nofun).2
  | punctuator =>
      refine tokensFrom_other valid nofun ?_
      rintro rfl
      nomatch valid

theorem tokensFrom_comment {text after : List Char}
    (inLine : ∀ character ∈ text, isLineEnd character = false)
    (ends : ∀ character ∈ after.head?, isLineEnd character = true) :
    tokensFrom 0 ('#' :: (text ++ after)) = tokensFrom 0 after := by
  have notSeparator : isSeparator '#' = false := by decide
  have line : (text ++ after).takeWhile (fun next => !isLineEnd next) = text := by
    rw [List.takeWhile_append_of_pos (by simpa using inLine)]
    cases after with
    | nil => simp
    | cons stop rest => simp [ends stop rfl]
  simp [tokensFrom, notSeparator, line, tokensFrom_length]

theorem Gap.tokensFrom {gap : List Char} (ignored : Gap gap) (after : List Char) :
    tokensFrom 0 (gap ++ after) = tokensFrom 0 after := by
  induction ignored with
  | nil => rfl
  | separator separator _ ih => simp [Graphql.tokensFrom, separator, ih]
  | @comment text rest stop inLine lineEnd _ ih =>
      have separator : isSeparator stop = true := by simp [isSeparator, lineEnd]
      rw [List.cons_append, List.append_assoc, tokensFrom_comment inLine (by simpa using lineEnd)]
      simp [Graphql.tokensFrom, separator, ih]

theorem Gap.endsToken {gap : List Char} (ignored : Gap gap) (present : gap ≠ []) (kind : Token.Kind)
    (after : List Char) : EndsToken kind (gap ++ after) := by
  intro _
  cases ignored with
  | nil => contradiction
  | separator separator _ =>
      refine ⟨by simp [endsWord, separator], ?_⟩
      rintro same
      cases Option.some.inj same
      exact absurd separator (by decide)
  | comment _ _ _ => exact ⟨by simp [endsWord], nofun⟩

theorem Token.Valid.endsToken {token : Token} (valid : token.Valid)
    (punctuator : token.kind = .punctuator) (kind : Token.Kind) (after : List Char) :
    EndsToken kind (token.text ++ after) := by
  intro _
  cases valid with
  | spread => exact ⟨by simp [endsWord, startsSpread], nofun⟩
  | punctuator character =>
      refine ⟨by simp [endsWord, character], ?_⟩
      rintro same
      cases Option.some.inj same
      exact absurd character (by decide)
  | name | number | lineString | blockString => contradiction

theorem Rendering.endsToken {before : Token.Kind} {list : List Token} {text : List Char}
    (rendering : Rendering before list text) : EndsToken before text := by
  intro separate
  cases rendering with
  | done ignored =>
      by_cases present : text = []
      · subst present
        exact ⟨rfl, nofun⟩
      · simpa using ignored.endsToken present before [] separate
  | @token _ gap text token rest ignored apart valid _ =>
      by_cases present : gap = []
      · have punctuator : token.kind = .punctuator := by
          by_contra other
          exact apart separate other present
        simpa [present] using valid.endsToken punctuator before text separate
      · exact ignored.endsToken present before _ separate

theorem Rendering.tokensFrom {before : Token.Kind} {list : List Token} {text : List Char}
    (rendering : Rendering before list text) : tokensFrom 0 text = list := by
  induction rendering with
  | done ignored =>
      have read := ignored.tokensFrom []
      rwa [List.append_nil] at read
  | token ignored _ valid later ih =>
      rw [ignored.tokensFrom, valid.tokensFrom later.endsToken, ih]

end TypedLiterals.Graphql
