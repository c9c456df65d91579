import Mathlib.Data.List.Infix
import TypedLiterals.Graphql.Normal
import TypedLiterals.Proofs.Graphql.BlockString

/-!
Re-printed tokens.

No line of a block string holds quotes that would close it, so neither does its value, and re-printing
keeps the last line away from the closing quotes. A valid token is therefore re-printed as a valid token,
which re-printing keeps.
-/

namespace TypedLiterals.Graphql

namespace BlockString

variable {after text : List Char} {character : Char}

/-! ## Closing quotes -/

theorem unclosed_cons {rest : List Char} (noQuote : character ≠ '\x22')
    (noEscape : character ≠ '\\') (unclosed : Unclosed after rest) :
    Unclosed after (character :: rest) := by
  refine .plain ?_ ?_ unclosed
  · rintro ⟨_, same⟩
    exact noQuote (List.cons.inj same).1.symm
  · rintro ⟨_, same⟩
    exact noEscape (List.cons.inj same).1.symm

theorem Unclosed.tail (unclosed : Unclosed after (character :: text)) (noEscape : character ≠ '\\') :
    Unclosed after text := by
  generalize whole : character :: text = list at unclosed
  cases unclosed with
  | nil => contradiction
  | escape _ => exact absurd (List.cons.inj whole).1 noEscape
  | plain _ _ rest =>
      cases whole
      exact rest

theorem Unclosed.drop {width : Nat} (unclosed : Unclosed after text)
    (blank : ∀ character ∈ text.take width, isBlankCharacter character = true) :
    Unclosed after (text.drop width) := by
  induction width generalizing text with
  | zero => exact unclosed
  | succ width ih =>
      cases text with
      | nil => exact unclosed
      | cons character rest =>
          have first := blank character (by simp)
          have noEscape : character ≠ '\\' := by
            rintro rfl
            exact absurd first (by decide)
          refine ih (unclosed.tail noEscape) fun other member => blank other ?_
          rw [List.take_succ_cons]
          exact List.mem_cons_of_mem _ member

theorem head_lines_prefix {line : List Char} {later : List (List Char)}
    (split : lines text = line :: later) : line <+: text := by
  induction text generalizing line later with
  | nil =>
      cases split
      exact List.prefix_rfl
  | cons character rest ih =>
      cases kind : isLineEnd character with
      | true =>
          obtain ⟨_, joined, _⟩ := lines_lineEnd rest kind
          rw [joined] at split
          cases split
          exact List.nil_prefix
      | false =>
          obtain ⟨first, others, inner, joined⟩ := lines_cons rest kind
          rw [joined] at split
          cases split
          exact List.cons_prefix_cons.mpr ⟨rfl, ih inner⟩

/-- Quotes that would close a line would close the body. -/
theorem Unclosed.of_mem_lines (unclosed : Unclosed after text) :
    ∀ line ∈ lines text, Unclosed [] line := by
  induction unclosed with
  | nil =>
      intro line member
      rw [List.mem_singleton.mp member]
      exact .nil
  | @escape rest _ ih =>
      obtain ⟨first, later, split⟩ := List.exists_cons_of_ne_nil (lines_ne_nil rest)
      have joined : lines (escapedTripleQuote ++ rest) = (escapedTripleQuote ++ first) :: later := by
        simp [escapedTripleQuote, tripleQuote, lines, isLineEnd, split]
      rw [split] at ih
      rw [joined]
      intro line member
      rcases List.mem_cons.mp member with rfl | member
      · exact .escape (ih first List.mem_cons_self)
      · exact ih line (List.mem_cons_of_mem _ member)
  | @plain character rest noQuotes noEscape _ ih =>
      cases kind : isLineEnd character with
      | true =>
          obtain ⟨last, joined, below⟩ := lines_lineEnd rest kind
          rw [joined]
          intro line member
          rcases List.mem_cons.mp member with rfl | member
          · exact .nil
          · exact ih line (below line member)
      | false =>
          obtain ⟨first, later, split, joined⟩ := lines_cons rest kind
          rw [split] at ih
          rw [joined]
          have within : character :: first ++ [] <+: character :: rest ++ after := by
            rw [List.append_nil]
            exact (List.cons_prefix_cons.mpr ⟨rfl, head_lines_prefix split⟩).trans
              (List.prefix_append _ _)
          intro line member
          rcases List.mem_cons.mp member with rfl | member
          · exact .plain (fun begins => noQuotes (begins.trans within))
              (fun begins => noEscape (begins.trans within)) (ih first List.mem_cons_self)
          · exact ih line (List.mem_cons_of_mem _ member)

/-- A pattern without line feeds is found before the next line feed or not at all. -/
theorem prefix_of_prefix_append_newline {pattern front back : List Char} (inLine : '\n' ∉ pattern)
    (begins : pattern <+: front ++ '\n' :: back) : pattern <+: front := by
  rcases List.prefix_or_prefix_of_prefix begins (List.prefix_append _ _) with found | ⟨rest, rfl⟩
  · exact found
  · rw [List.prefix_append_right_inj] at begins
    cases rest with
    | nil => rw [List.append_nil]
    | cons character more =>
        obtain ⟨rfl, _⟩ := List.cons_prefix_cons.mp begins
        simp at inLine

theorem Unclosed.append_newline {back : List Char} (unclosed : Unclosed [] text)
    (later : Unclosed after back) : Unclosed after (text ++ '\n' :: back) := by
  induction unclosed with
  | nil => exact unclosed_cons (by decide) (by decide) later
  | escape _ ih =>
      rw [List.append_assoc]
      exact .escape ih
  | @plain character rest noQuotes noEscape _ ih =>
      rw [List.append_nil] at noQuotes noEscape
      have whole : character :: (rest ++ '\n' :: back) ++ after =
          (character :: rest) ++ '\n' :: (back ++ after) := by simp
      rw [List.cons_append]
      refine .plain ?_ ?_ ih
      · intro begins
        rw [whole] at begins
        exact noQuotes (prefix_of_prefix_append_newline (by decide) begins)
      · intro begins
        rw [whole] at begins
        exact noEscape (prefix_of_prefix_append_newline (by decide) begins)

theorem Unclosed.unlines {texts : List (List Char)} (unclosed : ∀ line ∈ texts, Unclosed [] line) :
    Unclosed [] (unlines texts) := by
  induction texts with
  | nil => exact .nil
  | cons line later ih =>
      have first := unclosed line List.mem_cons_self
      by_cases last : later = []
      · subst last
        simpa [BlockString.unlines] using first
      · rw [unlines_cons line last]
        exact first.append_newline (ih fun other member => unclosed other (List.mem_cons_of_mem _ member))

theorem ValidBody.unclosed_value {body : List Char} (valid : ValidBody body) :
    Unclosed [] (value body) := by
  rw [value_eq]
  apply Unclosed.unlines
  intro line member
  obtain ⟨original, found, width, rfl, blank⟩ := exists_of_mem_valueLines member
  exact (Unclosed.of_mem_lines valid original found).drop blank

theorem needsLineBeforeQuotes_iff :
    needsLineBeforeQuotes text = true ↔
      (['\x22'] <:+ text ∧ ¬ escapedTripleQuote <:+ text) ∨ ['\\'] <:+ text := by
  simp [needsLineBeforeQuotes, ← Bool.not_eq_true]

theorem needsLineBeforeQuotes_cons {rest : List Char} (noEscape : character :: rest ≠ escapedTripleQuote)
    (needs : needsLineBeforeQuotes rest = true) : needsLineBeforeQuotes (character :: rest) = true := by
  rw [needsLineBeforeQuotes_iff] at needs ⊢
  rcases needs with ⟨quote, bare⟩ | escape
  · refine .inl ⟨quote.trans (List.suffix_cons _ _), ?_⟩
    intro ends
    rcases List.suffix_cons_iff.mp ends with same | inside
    · exact noEscape same.symm
    · exact bare inside
  · exact .inr (escape.trans (List.suffix_cons _ _))

/-- Closing quotes complete no pattern at the end of a text when no part of it may stand there. -/
theorem prefix_of_prefix_append_tripleQuote {pattern : List Char}
    (part : ∀ front ∈ pattern.inits, front ≠ [] → front ≠ pattern → needsLineBeforeQuotes front = true)
    (apart : needsLineBeforeQuotes (character :: text) = false)
    (begins : pattern <+: character :: text ++ tripleQuote) : pattern <+: character :: text := by
  rcases List.prefix_or_prefix_of_prefix begins (List.prefix_append _ _) with found | short
  · exact found
  · by_cases whole : character :: text = pattern
    · rw [whole]
    · rw [part _ ((List.mem_inits _ _).mpr short) (List.cons_ne_nil _ _) whole] at apart
      contradiction

theorem needsLineBeforeQuotes_escape (needs : needsLineBeforeQuotes text = true) :
    needsLineBeforeQuotes (escapedTripleQuote ++ text) = true := by
  have present : text ≠ [] := by
    rintro rfl
    exact absurd needs (by decide)
  apply needsLineBeforeQuotes_cons (by simpa [escapedTripleQuote] using present)
  apply needsLineBeforeQuotes_cons (by simp [escapedTripleQuote])
  apply needsLineBeforeQuotes_cons (by simp [escapedTripleQuote])
  exact needsLineBeforeQuotes_cons (by simp [escapedTripleQuote]) needs

theorem Unclosed.validBody (unclosed : Unclosed [] text) (apart : needsLineBeforeQuotes text = false) :
    ValidBody text := by
  induction unclosed with
  | nil => exact .nil
  | @escape rest _ ih =>
      refine .escape (ih ?_)
      rw [← Bool.not_eq_true] at apart ⊢
      exact fun needs => apart (needsLineBeforeQuotes_escape needs)
  | @plain character rest noQuotes noEscape _ ih =>
      rw [List.append_nil] at noQuotes noEscape
      refine .plain ?_ ?_ (ih ?_)
      · exact fun begins => noQuotes (prefix_of_prefix_append_tripleQuote (by decide) apart begins)
      · exact fun begins => noEscape (prefix_of_prefix_append_tripleQuote (by decide) apart begins)
      · rw [← Bool.not_eq_true] at apart ⊢
        intro needs
        exact apart (needsLineBeforeQuotes_cons (fun same => noEscape (same ▸ List.prefix_rfl)) needs)

theorem Unclosed.validBody_printBody (unclosed : Unclosed [] text) : ValidBody (printBody text) := by
  have closed : ValidBody (text ++ (if needsLineBeforeQuotes text then ['\n'] else [])) := by
    cases needs : needsLineBeforeQuotes text with
    | true => exact unclosed.append_newline .nil
    | false => simpa using unclosed.validBody needs
  rw [printBody, List.append_assoc]
  split
  · exact unclosed_cons (by decide) (by decide) closed
  · exact closed

/-! ## Tokens -/

theorem body?_quote (body : List Char) : body? (quote body) = some body := by
  have begins : tripleQuote.isPrefixOf (quote body) = true := by
    rw [List.isPrefixOf_iff_prefix, quote, List.append_assoc]
    exact List.prefix_append _ _
  have ends : tripleQuote.isSuffixOf (quote body) = true := by
    rw [List.isSuffixOf_iff_suffix]
    exact List.suffix_append _ _
  have size : (quote body).length = body.length + 6 := by
    simp [quote, tripleQuote]
  simp only [body?, begins, ends, size]
  simp [quote, tripleQuote]

theorem reprint_quote (body : List Char) :
    reprint (quote body) = quote (printBody (value body)) := by
  rw [reprint, body?_quote]
  rfl

theorem reprint_of_not_prefix {token : List Char} (other : ¬ tripleQuote <+: token) :
    reprint token = token := by
  have apart : tripleQuote.isPrefixOf token = false := by
    rwa [← Bool.not_eq_true, List.isPrefixOf_iff_prefix]
  simp [reprint, body?, apart]

end BlockString

open BlockString

/-- A token with its text re-printed. -/
def Token.reprinted (token : Token) : Token :=
  ⟨token.kind, token.printed⟩

@[simp] theorem Token.reprinted_kind (token : Token) : token.reprinted.kind = token.kind := rfl

theorem reprint_lineString {body : List Char} (valid : LineBody body) :
    reprint ('\x22' :: (body ++ ['\x22'])) = '\x22' :: (body ++ ['\x22']) := by
  cases valid with
  | nil => decide
  | escape _ => exact reprint_of_not_prefix (by simp [tripleQuote, List.cons_prefix_cons])
  | plain noQuote _ _ _ =>
      exact reprint_of_not_prefix (by simp [tripleQuote, List.cons_prefix_cons, noQuote.symm])

/-- A text that no string begins. -/
def Unquoted (text : List Char) : Prop :=
  ∃ first rest, text = first :: rest ∧ first ≠ '\x22'

theorem Unquoted.append {text : List Char} (unquoted : Unquoted text) (after : List Char) :
    Unquoted (text ++ after) := by
  obtain ⟨first, rest, rfl, plain⟩ := unquoted
  exact ⟨first, rest ++ after, rfl, plain⟩

theorem Unquoted.not_tripleQuote {text : List Char} (unquoted : Unquoted text) :
    ¬ tripleQuote <+: text := by
  obtain ⟨first, rest, rfl, plain⟩ := unquoted
  intro begins
  exact plain (List.cons_prefix_cons.mp begins).1.symm

theorem WordText.unquoted {text : List Char} (valid : WordText text) : Unquoted text := by
  obtain ⟨first, rest, same, inside, _⟩ := valid
  refine ⟨first, rest, same, ?_⟩
  rintro rfl
  exact inside (by decide)

theorem reprint_word {word : List Char} (valid : WordText word) : reprint word = word :=
  reprint_of_not_prefix valid.unquoted.not_tripleQuote

/-- Re-printing gives a valid token that is its own re-printed form. -/
theorem Token.Valid.reprinted {token : Token} (valid : token.Valid) :
    token.reprinted.Valid ∧ token.reprinted.reprinted = token.reprinted := by
  have kept : reprint token.text = token.text →
      token.reprinted.Valid ∧ token.reprinted.reprinted = token.reprinted := by
    intro same
    have whole : token.reprinted = token := by rw [Token.reprinted, Token.printed, same]
    rw [whole]
    exact ⟨valid, whole⟩
  cases valid with
  | spread => exact kept (by decide)
  | punctuator _ => exact kept (by simp [reprint, body?])
  | name start continues => exact kept (reprint_word (wordText_of_name start continues))
  | number number => exact kept (reprint_word number.wordText)
  | lineString line => exact kept (reprint_lineString line)
  | @blockString body block =>
      have printed : Token.reprinted ⟨.string, quote body⟩ = ⟨.string, quote (printBody (value body))⟩ := by
        rw [Token.reprinted, Token.printed, reprint_quote]
      rw [printed, Token.reprinted, Token.printed, reprint_quote, value_printBody]
      exact ⟨.blockString block.unclosed_value.validBody_printBody, rfl⟩

end TypedLiterals.Graphql
