import TypedLiterals.Proofs.Graphql.Normal

/-!
Byte order marks between tokens.

A valid text falls into elements: tokens, separators, byte order marks and comments. The lexer stands
between two elements or at the end of a word that may still go on, and a mark is ignored in the first
standpoint and taken for a part of the word in the second. So another mark leaves the normal form of a
text alone exactly when no word ends where it is put.
-/

namespace TypedLiterals

namespace Graphql

/-- What a valid text consists of. -/
inductive Element where
  | token (value : Token)
  | separator (character : Char)
  | mark
  | comment (text : List Char)

namespace Element

def text : Element → List Char
  | .token value => value.text
  | .separator character => [character]
  | .mark => [byteOrderMark]
  | .comment text => '#' :: text

inductive Valid : Element → Prop
  | token {token : Token} : token.Valid → Valid (.token token)
  | separator {character : Char} : isSeparator character = true → Valid (.separator character)
  | mark : Valid .mark
  | comment {text : List Char} :
      (∀ character ∈ text, isLineEnd character = false) → Valid (.comment text)

/-- Whether an element ends where these characters follow. A name or number has no more name characters
behind it, an empty string no third quote, and a comment goes on to the end of its line. (A dot behind a
number is let through, which the grammar refuses.) -/
inductive Ends : Element → List Char → Prop
  | punctuator {text after : List Char} : Ends (.token ⟨.punctuator, text⟩) after
  | word {text after : List Char} :
      (∀ character ∈ after.head?, isNameContinue character = false) →
      Ends (.token ⟨.word, text⟩) after
  | string {text after : List Char} :
      (text = ['\x22', '\x22'] → after.head? ≠ some '\x22') → Ends (.token ⟨.string, text⟩) after
  | separator {character : Char} {after : List Char} : Ends (.separator character) after
  | mark {after : List Char} : Ends .mark after
  | comment {text after : List Char} :
      (∀ character ∈ after.head?, isLineEnd character = true) → Ends (.comment text) after

theorem Ends.word_of_head {text after : List Char} {first : Char} (stop : isNameContinue first = false) :
    Ends (.token ⟨.word, text⟩) (first :: after) :=
  .word (by simpa using stop)

theorem Ends.comment_of_head {text after : List Char} {first : Char} (stop : isLineEnd first = true) :
    Ends (.comment text) (first :: after) :=
  .comment (by simpa using stop)

end Element

/-- The characters that elements are written with. -/
def written (elements : List Element) : List Char :=
  elements.flatMap Element.text

/-- Elements of which each ends where the next one begins. -/
inductive Lexical : List Element → Prop
  | nil : Lexical []
  | cons {element : Element} {rest : List Element} :
      element.Valid → element.Ends (written rest) → Lexical rest → Lexical (element :: rest)

def textOf (elements : List Element) : String :=
  String.ofList (written elements)

/-- Whether the last of these elements is a word, apart from marks behind it. -/
def EndsInWord (elements : List Element) : Prop :=
  ∃ front word count, word.kind = .word ∧
    elements = front ++ .token word :: List.replicate count .mark

variable {element : Element} {elements left right : List Element} {after : List Char}

@[simp] theorem written_nil : written [] = [] := rfl

@[simp] theorem written_cons (element : Element) (rest : List Element) :
    written (element :: rest) = element.text ++ written rest := rfl

@[simp] theorem written_append (left right : List Element) :
    written (left ++ right) = written left ++ written right :=
  List.flatMap_append

/-! ## The lexer between elements -/

theorem wordRest_mark (after : List Char) :
    wordRest (byteOrderMark :: after) = (byteOrderMark :: (wordRest after).1, (wordRest after).2) := by
  have goesOn : endsWord (byteOrderMark :: after) = false := by
    simp [endsWord, isSeparator, isBlankCharacter, isLineEnd, isPunctuator, startsSpread, byteOrderMark]
  rw [wordRest, goesOn]
  rfl

theorem tokensFrom_mark (after : List Char) : tokensFrom 0 (byteOrderMark :: after) = tokensFrom 0 after := by
  rw [tokensFrom, if_neg (by decide), if_neg (by decide), if_neg (by decide),
    if_neg (by simp [startsSpread, byteOrderMark]), if_neg (by decide), if_pos rfl]

/-- What the lexer reads on when it stands between two elements, or at the end of a word that it began. -/
def readFrom : Option (List Char) → List Char → List Token
  | none, after => tokensFrom 0 after
  | some word, after => ⟨.word, word ++ (wordRest after).1⟩ :: tokensFrom 0 (wordRest after).2

/-- The word that is read when the lexer comes to the end of an element. A mark goes on with a word and
does not begin one. -/
def Element.reaches : Option (List Char) → Element → Option (List Char)
  | word, .token ⟨.word, text⟩ => some (word.getD [] ++ text)
  | some word, .mark => some (word ++ [byteOrderMark])
  | _, _ => none

/-- The tokens that an element finishes. -/
def Element.finishes : Option (List Char) → Element → List Token
  | _, .token ⟨.word, _⟩ => []
  | some _, .mark => []
  | word, .token value => (word.map (Token.mk .word)).toList ++ [value]
  | word, _ => (word.map (Token.mk .word)).toList

theorem readFrom_of_endsWord (word : Option (List Char)) (ends : endsWord after = true) :
    readFrom word after = (word.map (Token.mk .word)).toList ++ tokensFrom 0 after := by
  cases word with
  | none => rfl
  | some word =>
      have read : wordRest after = ([], after) := readsWhole_nil after ends
      simp [readFrom, read]

theorem Token.Valid.endsWord {token : Token} (valid : token.Valid) (other : token.kind ≠ .word) :
    endsWord (token.text ++ after) = true := by
  cases valid with
  | spread => simp [Graphql.endsWord, startsSpread]
  | punctuator character => simp [Graphql.endsWord, character]
  | name | number => contradiction
  | lineString | blockString => simp [Graphql.endsWord, BlockString.quote, BlockString.tripleQuote]

theorem readFrom_token {token : Token} (word : Option (List Char)) (valid : token.Valid)
    (ends : (Element.token token).Ends after) :
    readFrom word (token.text ++ after) =
      (Element.token token).finishes word ++ readFrom ((Element.token token).reaches word) after := by
  obtain ⟨kind, text⟩ := token
  cases ends with
  | word _ =>
      have whole : WordText text := valid.wordText rfl
      cases word with
      | none => exact whole.tokensFrom after
      | some word =>
          simp [readFrom, whole.wordRest, Element.finishes, Element.reaches]
  | punctuator =>
      have other : Token.Kind.punctuator ≠ .word := by decide
      have apart : text ≠ ['\x22', '\x22'] := by
        rintro rfl
        cases valid
      rw [readFrom_of_endsWord word (valid.endsWord other),
        tokensFrom_other valid other fun same => absurd same apart]
      simp [Element.finishes, Element.reaches, readFrom]
  | string apart =>
      have other : Token.Kind.string ≠ .word := by decide
      rw [readFrom_of_endsWord word (valid.endsWord other), tokensFrom_other valid other apart]
      simp [Element.finishes, Element.reaches, readFrom]

/-- Reading one element: what it finishes, and then what follows. -/
theorem readFrom_element (word : Option (List Char)) (valid : element.Valid) (ends : element.Ends after) :
    readFrom word (element.text ++ after) =
      element.finishes word ++ readFrom (element.reaches word) after := by
  cases valid with
  | token valid => exact readFrom_token word valid ends
  | separator separator =>
      rw [Element.text, readFrom_of_endsWord word (by simp [endsWord, separator])]
      cases word <;> simp [tokensFrom, separator, Element.finishes, Element.reaches, readFrom]
  | mark =>
      cases word with
      | none => exact tokensFrom_mark after
      | some word => simp [readFrom, Element.text, wordRest_mark, Element.finishes, Element.reaches]
  | comment inLine =>
      cases ends with
      | comment ends =>
          rw [Element.text, List.cons_append, readFrom_of_endsWord word (by simp [endsWord]),
            tokensFrom_comment inLine ends]
          cases word <;> simp [Element.finishes, Element.reaches, readFrom]

def finishesAll : Option (List Char) → List Element → List Token
  | _, [] => []
  | word, element :: rest => element.finishes word ++ finishesAll (element.reaches word) rest

/-- Reading elements: what they finish, and then what follows the last one. -/
theorem readFrom_elements (word : Option (List Char)) (lexical : Lexical (left ++ right)) :
    readFrom word (written (left ++ right)) =
      finishesAll word left ++ readFrom (left.foldl Element.reaches word) (written right) := by
  induction left generalizing word with
  | nil => rfl
  | cons element rest ih =>
      cases lexical with
      | cons valid ends later =>
          have first := readFrom_element word valid ends
          rw [List.append_eq, ih _ later] at first
          rw [List.cons_append, written_cons, first, finishesAll, List.append_assoc, List.foldl_cons]

/-! ## Where a mark is ignored -/

theorem endsInWord_concat : EndsInWord (elements ++ [element]) ↔
    (∃ word, element = .token word ∧ word.kind = .word) ∨ (element = .mark ∧ EndsInWord elements) := by
  constructor
  · rintro ⟨front, word, count, kind, same⟩
    cases count with
    | zero =>
        have last := (List.append_inj' same rfl).2
        exact .inl ⟨word, List.head_eq_of_cons_eq last, kind⟩
    | succ count =>
        rw [List.replicate_succ', ← List.cons_append, ← List.append_assoc] at same
        obtain ⟨front_eq, last⟩ := List.append_inj' same rfl
        exact .inr ⟨List.head_eq_of_cons_eq last, front, word, count, kind, front_eq⟩
  · rintro (⟨word, rfl, kind⟩ | ⟨rfl, front, word, count, kind, rfl⟩)
    · exact ⟨elements, word, 0, kind, rfl⟩
    · exact ⟨front, word, count + 1, kind, by simp [List.replicate_succ']⟩

/-- The lexer is at the end of a word just behind a word and the marks that follow it. -/
theorem endsInWord_iff : EndsInWord elements ↔ ∃ word, elements.foldl Element.reaches none = some word := by
  induction elements using List.reverseRecOn with
  | nil => simp [EndsInWord]
  | append_singleton front element ih =>
      rw [endsInWord_concat, List.foldl_append, List.foldl_cons, List.foldl_nil, ih]
      cases element with
      | token value =>
          obtain ⟨kind, text⟩ := value
          cases kind <;> simp [Element.reaches]
      | mark =>
          cases front.foldl Element.reaches none <;> simp [Element.reaches]
      | separator | comment => simp [Element.reaches]

theorem Element.Valid.text_ne_nil (valid : element.Valid) : element.text ≠ [] := by
  cases valid with
  | token valid =>
      cases valid with
      | number number =>
          obtain ⟨first, rest, same, _⟩ := number.wordText
          simp [text, same]
      | _ => simp [text, BlockString.quote, BlockString.tripleQuote]
  | _ => simp [text]

theorem Element.ends_congr {other : List Char} (same : after.head? = other.head?)
    (ends : element.Ends after) : element.Ends other := by
  cases ends with
  | word ends => exact .word (same ▸ ends)
  | string ends => exact .string (same ▸ ends)
  | comment ends => exact .comment (same ▸ ends)
  | punctuator | separator | mark => constructor

theorem Element.Ends.before_mark {rest : List Char} (ends : element.Ends after)
    (outside : ∀ text, element ≠ .comment text) : element.Ends (byteOrderMark :: rest) := by
  cases ends with
  | word => exact .word (by simp; decide)
  | string => exact .string fun _ => by simp; decide
  | comment => exact absurd rfl (outside _)
  | punctuator | separator | mark => constructor

/-- A mark may be put anywhere but behind a comment, which it would be a part of. -/
theorem Lexical.insert_mark (lexical : Lexical (left ++ right))
    (outside : ∀ text, left.getLast? ≠ some (.comment text)) : Lexical (left ++ .mark :: right) := by
  induction left with
  | nil => exact .cons .mark .mark lexical
  | cons element rest ih =>
      cases lexical with
      | cons valid ends later =>
          cases rest with
          | nil => exact .cons valid (ends.before_mark (by simpa using outside)) (.cons .mark .mark later)
          | cons next rest =>
              refine .cons valid (Element.ends_congr ?_ ends) (ih later (by simpa using outside))
              cases later with
              | cons nextValid _ _ =>
                  obtain ⟨first, others, same⟩ := List.exists_cons_of_ne_nil nextValid.text_ne_nil
                  simp [same]

/-- Of the tokens before it only the last one's kind shows in how a token is written. -/
theorem exists_printAfter_append (before : Token.Kind) (front : List Token) :
    ∃ kind, ∀ list, printAfter before (front ++ list) = printAfter before front ++ printAfter kind list := by
  induction front generalizing before with
  | nil => exact ⟨before, fun _ => rfl⟩
  | cons token rest ih =>
      obtain ⟨kind, split⟩ := ih token.kind
      exact ⟨kind, fun list => by simp [printAfter, split]⟩

/-- A word is printed as it was read, so what was taken into it shows in the normal form. -/
theorem print_word_injective {front rest : List Token} {word other : List Char}
    (plain : ¬ BlockString.tripleQuote <+: word) (otherPlain : ¬ BlockString.tripleQuote <+: other)
    (same : print (front ++ ⟨.word, word⟩ :: rest) = print (front ++ ⟨.word, other⟩ :: rest)) :
    word = other := by
  obtain ⟨kind, split⟩ := exists_printAfter_append .punctuator front
  rw [print, print, split, split] at same
  have words := List.append_cancel_left same
  simp only [printAfter, Token.printed, BlockString.reprint_of_not_prefix plain,
    BlockString.reprint_of_not_prefix otherPlain] at words
  exact List.append_cancel_left (List.append_cancel_right words)

theorem unquoted_of_reaches {word : Option (List Char)} (valid : element.Valid)
    (unquoted : ∀ text ∈ word, Unquoted text) : ∀ text ∈ element.reaches word, Unquoted text := by
  intro text reached
  cases valid with
  | @token token valid =>
      obtain ⟨kind, written⟩ := token
      cases kind with
      | word =>
          cases Option.some.inj reached
          cases word with
          | none => exact (valid.wordText rfl).unquoted
          | some word => exact (unquoted word rfl).append written
      | punctuator | string => simp [Element.reaches] at reached
  | mark =>
      cases word with
      | none => simp [Element.reaches] at reached
      | some word =>
          cases Option.some.inj reached
          exact (unquoted word rfl).append _
  | separator | comment => simp [Element.reaches] at reached

theorem unquoted_of_foldl {word : Option (List Char)} (lexical : Lexical (left ++ right))
    (unquoted : ∀ text ∈ word, Unquoted text) : ∀ text ∈ left.foldl Element.reaches word, Unquoted text := by
  induction left generalizing word with
  | nil => exact unquoted
  | cons element rest ih =>
      cases lexical with
      | cons valid _ later => exact ih later (unquoted_of_reaches valid unquoted)

theorem normalize_mark_iff (lexical : Lexical (left ++ right))
    (outside : ∀ text, left.getLast? ≠ some (.comment text)) :
    normalize (textOf (left ++ .mark :: right)) = normalize (textOf (left ++ right)) ↔
      ¬ EndsInWord left := by
  have plain := readFrom_elements none lexical
  have marked := readFrom_elements none (lexical.insert_mark outside)
  have unquoted : ∀ text ∈ left.foldl Element.reaches none, Unquoted text :=
    unquoted_of_foldl lexical (by simp)
  rw [written_cons] at marked
  rw [normalize, normalize, textOf, textOf, String.toList_ofList, String.toList_ofList, tokens, tokens,
    endsInWord_iff]
  change tokensFrom 0 _ = _ at plain marked
  rw [plain, marked]
  cases stand : left.foldl Element.reaches none with
  | none => simp [readFrom, Element.text, tokensFrom_mark]
  | some word =>
      have begun := unquoted word stand
      simp only [Option.some.injEq, exists_eq', not_true, iff_false]
      intro same
      simp only [readFrom, Element.text, List.cons_append, List.nil_append, wordRest_mark] at same
      have words := print_word_injective (begun.append _).not_tripleQuote (begun.append _).not_tripleQuote
        (String.ofList_injective same)
      exact List.cons_ne_self _ _ (List.append_cancel_left words)

end Graphql

open Graphql

/-- Another byte order mark outside strings and comments leaves the normal form of a valid text and its
fingerprint alone if and only if it stands behind no word. -/
theorem mark_ignored_iff {left right : List Element} (lexical : Lexical (left ++ right))
    (outside : ∀ text, left.getLast? ≠ some (.comment text)) (seed : String) :
    (normalize (textOf (left ++ .mark :: right)) = normalize (textOf (left ++ right)) ↔
      ¬ EndsInWord left) ∧
    (fingerprint seed (textOf (left ++ .mark :: right)) = fingerprint seed (textOf (left ++ right)) ↔
      ¬ EndsInWord left ∨ Digest.Collide (fingerprintMessage seed (textOf (left ++ .mark :: right)))
        (fingerprintMessage seed (textOf (left ++ right)))) := by
  have normal := normalize_mark_iff lexical outside
  exact ⟨normal, by rw [fingerprint_eq_iff, normal]⟩

/-- A comment, an argument and an empty string around a position behind a parenthesis. -/
theorem mark_ignored_argument :
    let left : List Element := [.token ⟨.punctuator, ['{']⟩, .comment ['b'], .separator '\n',
      .token ⟨.word, ['a']⟩, .token ⟨.punctuator, ['(']⟩]
    let right : List Element := [.mark, .token ⟨.word, ['n']⟩, .token ⟨.punctuator, [':']⟩,
      .token ⟨.string, ['\x22', '\x22']⟩, .token ⟨.punctuator, [')']⟩, .token ⟨.punctuator, ['}']⟩]
    Lexical (left ++ right) ∧ (∀ text, left.getLast? ≠ some (.comment text)) ∧
    textOf (left ++ right) = "\x7b#b\na(\uFEFFn:\x22\x22)\x7d" ∧
    normalize "\x7b#b\na(\uFEFF\uFEFFn:\x22\x22)\x7d" = normalize "\x7b#b\na(\uFEFFn:\x22\x22)\x7d" := by
  intro left right
  have name {first : Char} (start : isNameStart first = true) : (Element.token ⟨.word, [first]⟩).Valid :=
    .token (.name start (List.forall_mem_nil _))
  have sign {character : Char} (punctuator : isPunctuator character = true) :
      (Element.token ⟨.punctuator, [character]⟩).Valid :=
    .token (.punctuator punctuator)
  have lexical : Lexical (left ++ right) :=
    .cons (sign (by decide)) .punctuator <|
    .cons (.comment (List.forall_mem_singleton.mpr (by decide))) (.comment_of_head (by decide)) <|
    .cons (.separator (by decide)) .separator <| .cons (name (by decide)) (.word_of_head (by decide)) <|
    .cons (sign (by decide)) .punctuator <| .cons .mark .mark <|
    .cons (name (by decide)) (.word_of_head (by decide)) <| .cons (sign (by decide)) .punctuator <|
    .cons (.token (.lineString .nil)) (.string (by decide)) <|
    .cons (sign (by decide)) .punctuator <| .cons (sign (by decide)) .punctuator .nil
  have outside : ∀ text, left.getLast? ≠ some (.comment text) := by simp [left]
  have apart : ¬ EndsInWord left := by
    simp [endsInWord_iff, left, Element.reaches]
  exact ⟨lexical, outside, rfl, (mark_ignored_iff lexical outside "").1.mpr apart⟩

/-- A mark right behind a name becomes a part of it. -/
theorem mark_taken_into_name :
    let left : List Element := [.token ⟨.punctuator, ['{']⟩, .separator ' ', .token ⟨.word, ['a']⟩]
    let right : List Element := [.separator ' ', .token ⟨.punctuator, ['}']⟩]
    Lexical (left ++ right) ∧ textOf (left ++ right) = "\x7b a \x7d" ∧
    textOf (left ++ .mark :: right) = "\x7b a\uFEFF \x7d" ∧
    normalize "\x7b a \x7d" = "\x7ba\x7d" ∧ normalize "\x7b a\uFEFF \x7d" = "\x7ba\uFEFF\x7d" ∧
    normalize "\x7b a\uFEFF \x7d" ≠ normalize "\x7b a \x7d" := by
  intro left right
  have lexical : Lexical (left ++ right) :=
    .cons (.token (.punctuator (by decide))) .punctuator <| .cons (.separator (by decide)) .separator <|
    .cons (.token (.name (by decide) (List.forall_mem_nil _))) (.word_of_head (by decide)) <|
    .cons (.separator (by decide)) .separator <| .cons (.token (.punctuator (by decide))) .punctuator .nil
  exact ⟨lexical, rfl, rfl, by decide, by decide, by decide⟩

end TypedLiterals
