import Mathlib.Data.List.TakeDrop
import Mathlib.Tactic.IntervalCases
import TypedLiterals.Proofs.Edit
import TypedLiterals.Syntax.Parser

/-!
What the reader makes of known characters.

A cursor stands somewhere in a text. From the characters behind it follows what is read next.
-/

namespace TypedLiterals.Syntax

open Text (byteLength)

variable {text front rest more : List Char} {cursor : Cursor} {character : Char}

/-! ## Identifiers -/

theorem identifierRest_cons (part : isIdentifierPart character = true) (rest : List Char) :
    identifierRest 0 (character :: rest) =
      (character :: (identifierRest 0 rest).1, (identifierRest 0 rest).2) := by
  rw [identifierRest, if_pos part]

theorem identifierRest_append (parts : ∀ character ∈ front, isIdentifierPart character = true)
    (rest : List Char) :
    identifierRest 0 (front ++ rest) = (front ++ (identifierRest 0 rest).1, (identifierRest 0 rest).2) := by
  induction front with
  | nil => rfl
  | cons first front ih =>
      obtain ⟨here, others⟩ := List.forall_mem_cons.mp parts
      rw [List.cons_append, identifierRest_cons here, ih others]
      rfl

theorem identifierRest_of_not_part (other : isIdentifierPart character = false) (plain : character ≠ '\\')
    (rest : List Char) : identifierRest 0 (character :: rest) = ([], character :: rest) := by
  rw [identifierRest, if_neg (by simp [other]), if_neg (by simp [plain])]

/-- Whether an identifier goes on with a text is a matter of the first character, when this is no
backslash. -/
theorem identifierRest_eq_nil_iff (plain : rest.head? ≠ some '\\') :
    (identifierRest 0 rest).1 = [] ↔ ∀ character, rest.head? = some character →
      isIdentifierPart character = false := by
  cases rest with
  | nil => simp [identifierRest]
  | cons first rest =>
      cases part : isIdentifierPart first with
      | true => simp [identifierRest_cons part, part]
      | false =>
          rw [identifierRest_of_not_part part (by simpa using plain)]
          simp [part]

theorem mem_of_isHexDigit (hex : Text.isHexDigit character = true) :
    character ∈ "0123456789abcdefABCDEF".toList := by
  have value : character = Char.ofNat character.toNat := (Char.ofNat_toNat character).symm
  have bounds : (48 ≤ character.toNat ∧ character.toNat ≤ 57) ∨
      (97 ≤ character.toNat ∧ character.toNat ≤ 102) ∨ (65 ≤ character.toNat ∧ character.toNat ≤ 70) := by
    simp only [Text.isHexDigit, Bool.or_eq_true, Bool.and_eq_true, decide_eq_true_eq, or_assoc] at hex
    rcases hex with digit | lower | upper
    · exact .inl (by simpa [Char.isDigit, UInt32.le_iff_toNat_le] using digit)
    · exact .inr (.inl lower)
    · exact .inr (.inr upper)
  rw [value]
  rcases bounds with ⟨low, high⟩ | ⟨low, high⟩ | ⟨low, high⟩ <;>
    interval_cases character.toNat <;> decide

theorem isIdentifierPart_of_isHexDigit (hex : Text.isHexDigit character = true) :
    isIdentifierPart character = true := by
  have all : ∀ digit ∈ "0123456789abcdefABCDEF".toList, isIdentifierPart digit = true :=
    List.forall_iff_forall_mem.mp (by decide)
  exact all character (mem_of_isHexDigit hex)

/-! ## Cursors -/

theorem foldl_utf8Size (taken : List Char) (sum : Nat) :
    taken.foldl (fun sum character => sum + character.utf8Size) sum = sum + byteLength taken := by
  induction taken generalizing sum with
  | nil => rfl
  | cons first taken ih => rw [List.foldl_cons, ih, Text.byteLength_cons, Nat.add_assoc]

theorem Cursor.behind_eq (cursor : Cursor) (parts : List Char × List Char) :
    cursor.behind parts = ⟨cursor.offset + byteLength parts.1, parts.2⟩ := by
  rw [Cursor.behind, foldl_utf8Size, Nat.zero_add]

theorem Cursor.skipSpace_spaces {spaces : List Char} (offset : Nat)
    (space : ∀ character ∈ spaces, isSpace character = true) (solid : isSpace character = false)
    (rest : List Char) :
    (Cursor.mk offset (spaces ++ character :: rest)).skipSpace =
      ⟨offset + byteLength spaces, character :: rest⟩ := by
  have span : (spaces ++ character :: rest).span isSpace = (spaces, character :: rest) := by
    rw [List.span_eq_takeWhile_dropWhile, List.takeWhile_append_of_pos space,
      List.dropWhile_append_of_pos space, List.takeWhile_cons_of_neg (by simp [solid]),
      List.dropWhile_cons_of_neg (by simp [solid]), List.append_nil]
  rw [Cursor.skipSpace, span, Cursor.behind_eq]

theorem Cursor.trivia_spaces {spaces : List Char} (offset : Nat)
    (space : ∀ character ∈ spaces, isSpace character = true) (solid : isSpace character = false)
    (slash : character ≠ '/') (rest : List Char) :
    (Cursor.mk offset (spaces ++ character :: rest)).trivia =
      ([], ⟨offset + byteLength spaces, character :: rest⟩) := by
  have length : (spaces ++ character :: rest).length = (spaces.length + rest.length) + 1 := by
    simp only [List.length_append, List.length_cons]
    omega
  have none : (Cursor.mk (offset + byteLength spaces) (character :: rest)).comment? = none := by
    simp [Cursor.comment?, slash]
  rw [Cursor.trivia, length, Syntax.trivia, Cursor.skipSpace_spaces offset space solid, none]

/-! ## Pieces of import statements -/

variable {spaces : List Char} {offset : Nat}

theorem piece?_mark (space : ∀ character ∈ spaces, isSpace character = true)
    (solid : isSpace character = false) (slash : character ≠ '/')
    (mark : startsIdentifier (character :: rest) = false)
    (quote : character ≠ '\x22' ∧ character ≠ '\x27') :
    (Cursor.mk offset (spaces ++ character :: rest)).piece? =
      some ⟨[], .leaf .punctuation ⟨offset + byteLength spaces,
        offset + byteLength spaces + byteLength [character]⟩, [character],
        ⟨offset + byteLength spaces + byteLength [character], rest⟩⟩ := by
  rw [Cursor.piece?, Cursor.trivia_spaces offset space solid slash rest]
  simp only [mark, quote, decide_false, Bool.or_false, Bool.false_eq_true, if_false, Cursor.behind_eq]

theorem piece?_word {word : List Char} (space : ∀ character ∈ spaces, isSpace character = true)
    (solid : isSpace character = false) (slash : character ≠ '/')
    (starts : isIdentifierStart character = true) (plain : character ≠ '\\')
    (parts : ∀ part ∈ word, isIdentifierPart part = true) (ends : identifierRest 0 rest = ([], rest)) :
    (Cursor.mk offset (spaces ++ character :: (word ++ rest))).piece? =
      some ⟨[], .leaf .identifier ⟨offset + byteLength spaces,
        offset + byteLength spaces + byteLength (character :: word)⟩, character :: word,
        ⟨offset + byteLength spaces + byteLength (character :: word), rest⟩⟩ := by
  have first : isIdentifierPart character = true := by
    rw [isIdentifierStart, Bool.and_eq_true] at starts
    exact starts.1
  have read : identifierRest 0 (character :: (word ++ rest)) = (character :: word, rest) := by
    rw [identifierRest_cons first, identifierRest_append parts, ends, List.append_nil]
  have begins : startsIdentifier (character :: (word ++ rest)) = true := by
    simp [startsIdentifier, starts]
  rw [Cursor.piece?, Cursor.trivia_spaces offset space solid slash]
  simp only [begins, if_true, read, Cursor.behind_eq]

theorem stringLiteralRest_append {quote : Char} {inner : List Char}
    (plain : ∀ character ∈ inner, character ≠ quote ∧ character ≠ '\\' ∧ character ≠ '\n' ∧ character ≠ '\r')
    (noEscape : quote ≠ '\\') (rest : List Char) :
    stringLiteralRest quote (inner ++ quote :: rest) = (inner ++ [quote], rest) := by
  induction inner with
  | nil => simp [stringLiteralRest, noEscape]
  | cons first inner ih =>
      obtain ⟨⟨notQuote, notEscape, notLine, notReturn⟩, others⟩ := List.forall_mem_cons.mp plain
      have here : stringLiteralRest quote (first :: (inner ++ quote :: rest)) =
          (first :: (stringLiteralRest quote (inner ++ quote :: rest)).1,
            (stringLiteralRest quote (inner ++ quote :: rest)).2) := by
        rw [stringLiteralRest.eq_def]
        simp [notQuote, notEscape, notLine, notReturn]
      rw [List.cons_append, here, ih others]
      rfl

theorem piece?_string {inner : List Char} (space : ∀ character ∈ spaces, isSpace character = true)
    (plain : ∀ character ∈ inner,
      character ≠ '\x27' ∧ character ≠ '\\' ∧ character ≠ '\n' ∧ character ≠ '\r') :
    (Cursor.mk offset (spaces ++ '\x27' :: (inner ++ '\x27' :: rest))).piece? =
      some ⟨[], .leaf .string ⟨offset + byteLength spaces,
        offset + byteLength spaces + byteLength ('\x27' :: (inner ++ ['\x27']))⟩, '\x27' :: (inner ++ ['\x27']),
        ⟨offset + byteLength spaces + byteLength ('\x27' :: (inner ++ ['\x27'])), rest⟩⟩ := by
  rw [Cursor.piece?, Cursor.trivia_spaces offset space (by decide) (by decide)]
  have begins : startsIdentifier ('\x27' :: (inner ++ '\x27' :: rest)) = false := by
    change isIdentifierStart '\x27' = false
    decide
  simp only [begins, Bool.false_eq_true, if_false, decide_true, Bool.or_true, if_true,
    stringLiteralRest_append plain (by decide), Cursor.behind_eq]

end TypedLiterals.Syntax
