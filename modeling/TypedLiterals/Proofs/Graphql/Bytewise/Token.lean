import TypedLiterals.Proofs.Graphql.Rendering
import TypedLiterals.Proofs.Text.Encoding

/-!
The ends of tokens, found byte by byte.

A scanner walks over the bytes of a text and steps by fixed widths, two bytes behind a backslash and four behind an
escaped triple quote, so it may stand inside a character. All it looks for is ASCII, which no byte inside a character
is. It passes by such a byte on its own, and where it stops a character ends. A reading outside the bytes has no
result.
-/

namespace TypedLiterals.Graphql.Bytewise

open BlockString (tripleQuote escapedTripleQuote)
open Text (utf8 byteLength byteLength_cons byteLength_append bytesFrom? byteIs IsAscii Stands)

/-! ## Scanners -/

/-- The end of a comment that is read up to an offset. -/
def commentEnd? (bytes : List UInt8) (pos : Nat) : Option Nat :=
  if pos < bytes.length then do
    let byte ← bytes[pos]?
    if byteIs isLineEnd byte then some pos else commentEnd? bytes (pos + 1)
  else some pos
termination_by bytes.length - pos

/-- The end of a block string that is read up to an offset behind its opening quotes. -/
def blockStringEnd? (bytes : List UInt8) (pos : Nat) : Option Nat :=
  if pos < bytes.length then do
    let rest ← bytesFrom? bytes pos
    if utf8 escapedTripleQuote <+: rest then blockStringEnd? bytes (pos + 4)
    else if utf8 tripleQuote <+: rest then some (pos + 3)
    else blockStringEnd? bytes (pos + 1)
  else some bytes.length
termination_by bytes.length - pos

/-- The end of a one-line string that is read up to an offset behind its opening quote. -/
def lineStringEnd? (bytes : List UInt8) (pos : Nat) : Option Nat :=
  if pos < bytes.length then do
    let byte ← bytes[pos]?
    if byteIs (· == '\\') byte then lineStringEnd? bytes (pos + 2)
    else if byteIs (· == '\x22') byte then some (pos + 1)
    else if byteIs isLineEnd byte then some pos
    else lineStringEnd? bytes (pos + 1)
  else some (min bytes.length pos)
termination_by bytes.length - pos

/-- The end of the string that starts at an offset. -/
def stringEnd? (bytes : List UInt8) (start : Nat) : Option Nat := do
  let rest ← bytesFrom? bytes start
  if utf8 tripleQuote <+: rest then blockStringEnd? bytes (start + 3)
  else lineStringEnd? bytes (start + 1)

/-- The characters that end a word by themselves. -/
def breaksWord (character : Char) : Bool :=
  isSeparator character || character = '#' || character = '\x22' || isPunctuator character

def spread : List Char := ['.', '.', '.']

/-- Whether a byte at an offset is the first of a spread. -/
def startsSpread? (bytes : List UInt8) (pos : Nat) (byte : UInt8) : Option Bool :=
  if byteIs (· == '.') byte then (bytesFrom? bytes pos).map fun rest => decide (utf8 spread <+: rest) else some false

/-- Where something stands that ends a word, from an offset on. -/
def wordStop? (bytes : List UInt8) (pos : Nat) : Option Nat :=
  if pos < bytes.length then do
    let byte ← bytes[pos]?
    if byteIs breaksWord byte then some pos
    else if ← startsSpread? bytes pos byte then some pos
    else wordStop? bytes (pos + 1)
  else some pos
termination_by bytes.length - pos

/-- The end of the word that starts at an offset. -/
def wordEnd? (bytes : List UInt8) (start : Nat) : Option Nat :=
  (wordStop? bytes start).map fun pos => min (max pos (start + 1)) bytes.length

variable {bytes : List UInt8} {offset : Nat} {byte : UInt8} {more : List UInt8} {rest : List Char}
  {character : Char}

/-! ## What scanners look for -/

theorem isAscii_of_beq {character : Char} (ascii : IsAscii character) (other : Char)
    (same : (other == character) = true) : IsAscii other :=
  beq_iff_eq.mp same ▸ ascii

theorem isAscii_of_isLineEnd (character : Char) (lineEnd : isLineEnd character = true) : IsAscii character := by
  simp only [isLineEnd, Bool.or_eq_true, decide_eq_true_eq] at lineEnd
  rcases lineEnd with rfl | rfl <;> decide

theorem isAscii_of_isSeparator (character : Char) (separator : isSeparator character = true) :
    IsAscii character := by
  simp only [isSeparator, isBlankCharacter, Bool.or_eq_true, decide_eq_true_eq] at separator
  rcases separator with ((rfl | rfl) | lineEnd) | rfl
  · decide
  · decide
  · exact isAscii_of_isLineEnd character lineEnd
  · decide

theorem isAscii_of_isPunctuator (character : Char) (punctuator : isPunctuator character = true) :
    IsAscii character := by
  simp only [isPunctuator, List.contains_iff_mem, List.mem_cons, List.not_mem_nil, or_false] at punctuator
  rcases punctuator with
    rfl | rfl | rfl | rfl | rfl | rfl | rfl | rfl | rfl | rfl | rfl | rfl | rfl <;> decide

theorem isAscii_of_breaksWord (character : Char) (breaks : breaksWord character = true) : IsAscii character := by
  simp only [breaksWord, Bool.or_eq_true, decide_eq_true_eq] at breaks
  rcases breaks with ((separator | rfl) | rfl) | punctuator
  · exact isAscii_of_isSeparator character separator
  · decide
  · decide
  · exact isAscii_of_isPunctuator character punctuator

theorem utf8_tripleQuote_prefix_iff : utf8 tripleQuote <+: utf8 rest ↔ tripleQuote <+: rest :=
  Text.utf8_prefix_iff (Text.isAscii_of_all (by decide))

theorem utf8_escape_prefix_iff : utf8 escapedTripleQuote <+: utf8 rest ↔ escapedTripleQuote <+: rest :=
  Text.utf8_prefix_iff (Text.isAscii_of_all (by decide))

theorem utf8_spread_prefix_iff : utf8 spread <+: utf8 rest ↔ startsSpread rest = true := by
  rw [Text.utf8_prefix_iff (Text.isAscii_of_all (by decide)), startsSpread_iff, spread]

/-! ## Comments -/

theorem commentEnd?_high (stands : Stands bytes offset (byte :: more)) (high : 128 ≤ byte.toNat) :
    commentEnd? bytes offset = commentEnd? bytes (offset + 1) := by
  rw [commentEnd?, if_pos stands.lt, stands.head]
  simp only [Text.byteIs_high high, Bool.false_eq_true, if_false, Option.bind_eq_bind, Option.bind_some]

theorem commentEnd?_eq (stands : Stands bytes offset (utf8 rest)) :
    commentEnd? bytes offset =
      some (offset + byteLength (rest.takeWhile fun character => !isLineEnd character)) := by
  induction rest generalizing offset with
  | nil =>
      rw [commentEnd?, if_neg stands.not_lt]
      rfl
  | cons character rest ih =>
      obtain ⟨byte, head, reads⟩ := stands.exists_head
      rw [commentEnd?, if_pos stands.text_lt, head]
      simp only [reads isLineEnd isAscii_of_isLineEnd, Option.bind_eq_bind, Option.bind_some]
      cases lineEnd : isLineEnd character with
      | true => simp [lineEnd]
      | false =>
          rw [if_neg (by decide), stands.inside commentEnd?_high, ih stands.next]
          simp [lineEnd, Nat.add_assoc]

/-! ## Strings -/

theorem blockStringEnd?_high (stands : Stands bytes offset (byte :: more)) (high : 128 ≤ byte.toNat) :
    blockStringEnd? bytes offset = blockStringEnd? bytes (offset + 1) := by
  have noEscape : ¬ utf8 escapedTripleQuote <+: byte :: more := Text.not_utf8_prefix_high (by decide) high
  have noQuotes : ¬ utf8 tripleQuote <+: byte :: more := Text.not_utf8_prefix_high (by decide) high
  rw [blockStringEnd?, if_pos stands.lt, stands.bytesFrom?, Option.bind_eq_bind, Option.bind_some, if_neg noEscape,
    if_neg noQuotes]

theorem blockStringEnd?_cons (stands : Stands bytes offset (utf8 (character :: rest))) :
    blockStringEnd? bytes offset =
      if escapedTripleQuote <+: character :: rest then blockStringEnd? bytes (offset + 4)
      else if tripleQuote <+: character :: rest then some (offset + 3)
      else blockStringEnd? bytes (offset + 1) := by
  rw [blockStringEnd?, if_pos stands.text_lt, stands.bytesFrom?, Option.bind_eq_bind, Option.bind_some]
  simp only [utf8_escape_prefix_iff, utf8_tripleQuote_prefix_iff]

theorem blockStringEnd?_eq (stands : Stands bytes offset (utf8 rest)) :
    blockStringEnd? bytes offset = some (offset + byteLength (blockStringRest rest).1) := by
  fun_induction blockStringRest rest generalizing offset with
  | case1 rest ih =>
      have escape : escapedTripleQuote <+: '\\' :: '\x22' :: '\x22' :: '\x22' :: rest := ⟨rest, rfl⟩
      have behind : Stands bytes (offset + 4) (utf8 rest) :=
        (show Stands bytes offset (utf8 (escapedTripleQuote ++ rest)) from stands).skipText
      have whole := byteLength_append escapedTripleQuote (blockStringRest rest).1
      rw [blockStringEnd?_cons stands, if_pos escape, ih behind, Nat.add_assoc]
      exact congrArg (fun width => some (offset + width)) whole.symm
  | case2 rest =>
      have quotes : tripleQuote <+: '\x22' :: '\x22' :: '\x22' :: rest := ⟨rest, rfl⟩
      have noEscape : ¬ escapedTripleQuote <+: '\x22' :: '\x22' :: '\x22' :: rest := fun starts => by
        simp [escapedTripleQuote] at starts
      rw [blockStringEnd?_cons stands, if_neg noEscape, if_pos quotes]
      rfl
  | case3 character rest noEscape noQuotes ih =>
      have plain : ¬ escapedTripleQuote <+: character :: rest := by
        rintro ⟨after, same⟩
        obtain ⟨rfl, rfl⟩ := List.cons.inj same
        exact noEscape after rfl rfl
      have noOpening : ¬ tripleQuote <+: character :: rest := by
        rintro ⟨after, same⟩
        obtain ⟨rfl, rfl⟩ := List.cons.inj same
        exact noQuotes after rfl rfl
      rw [blockStringEnd?_cons stands, if_neg plain, if_neg noOpening, stands.inside blockStringEnd?_high,
        ih stands.next, byteLength_cons, Nat.add_assoc]
  | case4 =>
      rw [blockStringEnd?, if_neg stands.not_lt, ← stands.length_eq]
      rfl

theorem lineStringEnd?_high (stands : Stands bytes offset (byte :: more)) (high : 128 ≤ byte.toNat) :
    lineStringEnd? bytes offset = lineStringEnd? bytes (offset + 1) := by
  rw [lineStringEnd?, if_pos stands.lt, stands.head]
  simp only [Text.byteIs_high high, Bool.false_eq_true, if_false, Option.bind_eq_bind, Option.bind_some]

theorem lineStringEnd?_cons (stands : Stands bytes offset (utf8 (character :: rest))) :
    lineStringEnd? bytes offset =
      if character = '\\' then lineStringEnd? bytes (offset + 2)
      else if character = '\x22' then some (offset + 1)
      else if isLineEnd character then some offset
      else lineStringEnd? bytes (offset + 1) := by
  obtain ⟨byte, head, reads⟩ := stands.exists_head
  have backslash := reads (· == '\\') (isAscii_of_beq (by decide))
  have quote := reads (· == '\x22') (isAscii_of_beq (by decide))
  rw [lineStringEnd?, if_pos stands.text_lt, head]
  simp only [backslash, quote, reads isLineEnd isAscii_of_isLineEnd, beq_iff_eq, Option.bind_eq_bind,
    Option.bind_some]

theorem lineStringEnd?_eq (stands : Stands bytes offset (utf8 rest)) :
    lineStringEnd? bytes offset = some (offset + byteLength (lineStringRest rest).1) := by
  fun_induction lineStringRest rest generalizing offset with
  | case1 =>
      rw [lineStringEnd?, if_neg stands.not_lt, ← stands.length_eq]
      simp
  | case2 character rest ih =>
      have behind : Stands bytes (offset + 1) (utf8 (character :: rest)) := stands.next
      rw [lineStringEnd?_cons stands, if_pos rfl, behind.inside lineStringEnd?_high, ih behind.next, byteLength_cons,
        byteLength_cons]
      simp only [Nat.add_assoc]
      rfl
  | case3 rest =>
      rw [lineStringEnd?_cons stands, if_neg (by decide), if_pos rfl]
      rfl
  | case4 character rest noEscape noQuote lineEnd =>
      have noBackslash : character ≠ '\\' := fun same => absurd lineEnd (by rw [same]; decide)
      rw [lineStringEnd?_cons stands, if_neg noBackslash, if_neg noQuote, if_pos lineEnd]
      rfl
  | case5 character rest noEscape noQuote plain ih =>
      rw [lineStringEnd?_cons stands, byteLength_cons, if_neg noQuote, if_neg plain]
      split
      · next backslash =>
          -- A backslash with nothing behind it: the scanner steps past the end of the text.
          obtain rfl : rest = [] := by
            cases rest with
            | nil => rfl
            | cons next rest => exact (noEscape next rest backslash rfl).elim
          subst backslash
          have size : offset + 1 = bytes.length := stands.length_eq
          rw [lineStringEnd?, if_neg (by omega), ← size]
          exact congrArg some (Nat.min_eq_left (by omega))
      · rw [stands.inside lineStringEnd?_high, ih stands.next, Nat.add_assoc]

theorem stringEnd?_block (stands : Stands bytes offset (utf8 (tripleQuote ++ rest))) :
    stringEnd? bytes offset = some (offset + byteLength (tripleQuote ++ (blockStringRest rest).1)) := by
  have quotes : utf8 tripleQuote <+: utf8 (tripleQuote ++ rest) :=
    utf8_tripleQuote_prefix_iff.mpr (List.prefix_append _ _)
  have behind : Stands bytes (offset + 3) (utf8 rest) := stands.skipText
  rw [stringEnd?, stands.bytesFrom?, Option.bind_eq_bind, Option.bind_some, if_pos quotes, blockStringEnd?_eq behind,
    byteLength_append, Nat.add_assoc]
  rfl

theorem stringEnd?_line (stands : Stands bytes offset (utf8 (character :: rest)))
    (single : ¬ tripleQuote <+: character :: rest) :
    stringEnd? bytes offset = some (offset + byteLength (character :: (lineStringRest rest).1)) := by
  rw [stringEnd?, stands.bytesFrom?, Option.bind_eq_bind, Option.bind_some,
    if_neg (mt utf8_tripleQuote_prefix_iff.mp single), stands.inside lineStringEnd?_high,
    lineStringEnd?_eq stands.next, byteLength_cons, Nat.add_assoc]

theorem stringEnd?_eq (stands : Stands bytes offset (utf8 ('\x22' :: rest))) :
    stringEnd? bytes offset = some (offset + byteLength ('\x22' :: (stringRest rest).1)) := by
  by_cases quotes : tripleQuote <+: '\x22' :: rest
  · obtain ⟨after, same⟩ := quotes
    obtain rfl : '\x22' :: '\x22' :: after = rest := (List.cons.inj same).2
    exact stringEnd?_block stands
  · have line : stringRest rest = lineStringRest rest := by
      rw [stringRest]
      rintro after rfl
      exact quotes ⟨after, rfl⟩
    rw [stringEnd?_line stands quotes, line]

theorem exists_stringEnd? (stands : Stands bytes offset (utf8 (character :: rest))) :
    ∃ taken after, character :: rest = taken ++ after ∧ taken ≠ [] ∧
      stringEnd? bytes offset = some (offset + byteLength taken) := by
  by_cases quotes : tripleQuote <+: character :: rest
  · obtain ⟨after, same⟩ := quotes
    rw [← same] at stands ⊢
    refine ⟨tripleQuote ++ (blockStringRest after).1, (blockStringRest after).2, ?_,
      List.append_ne_nil_of_left_ne_nil (List.cons_ne_nil _ _) _, stringEnd?_block stands⟩
    rw [List.append_assoc, blockStringRest_append]
  · refine ⟨_, (lineStringRest rest).2, ?_, List.cons_ne_nil _ _, stringEnd?_line stands quotes⟩
    rw [List.cons_append, lineStringRest_append]

/-! ## Words -/

theorem startsSpread?_eq (stands : Stands bytes offset (utf8 (character :: rest)))
    (head : bytes[offset]? = some byte) :
    startsSpread? bytes offset byte = some (startsSpread (character :: rest)) := by
  obtain ⟨found, same, reads⟩ := stands.exists_head
  obtain rfl : found = byte := Option.some.inj (same.symm.trans head)
  rw [startsSpread?, reads (· == '.') (isAscii_of_beq (by decide)), stands.bytesFrom?, Option.map_some]
  simp only [utf8_spread_prefix_iff, Bool.decide_eq_true]
  split
  · rfl
  · next noDot =>
      have dotted : startsSpread (character :: rest) = true → character = '.' := fun starts =>
        (List.cons_prefix_cons.mp (startsSpread_iff.mp starts)).1.symm
      rw [Bool.eq_false_iff.mpr fun starts => noDot (beq_iff_eq.mpr (dotted starts))]

theorem wordStop?_high (stands : Stands bytes offset (byte :: more)) (high : 128 ≤ byte.toNat) :
    wordStop? bytes offset = wordStop? bytes (offset + 1) := by
  rw [wordStop?, if_pos stands.lt, stands.head]
  simp only [startsSpread?, Text.byteIs_high high, Bool.false_eq_true, if_false, Option.bind_eq_bind,
    Option.bind_some]

theorem wordStop?_cons (stands : Stands bytes offset (utf8 (character :: rest))) :
    wordStop? bytes offset =
      if endsWord (character :: rest) then some offset else wordStop? bytes (offset + 1) := by
  obtain ⟨byte, head, reads⟩ := stands.exists_head
  have ends : endsWord (character :: rest) = (breaksWord character || startsSpread (character :: rest)) := rfl
  rw [wordStop?, if_pos stands.text_lt, head]
  simp only [reads breaksWord isAscii_of_breaksWord, startsSpread?_eq stands head, ends, Option.bind_eq_bind,
    Option.bind_some]
  cases breaksWord character <;> rfl

theorem wordStop?_eq (stands : Stands bytes offset (utf8 rest)) :
    wordStop? bytes offset = some (offset + byteLength (wordRest rest).1) := by
  induction rest generalizing offset with
  | nil =>
      rw [wordStop?, if_neg stands.not_lt]
      rfl
  | cons character rest ih =>
      rw [wordStop?_cons stands, wordRest]
      split
      · rfl
      · rw [stands.inside wordStop?_high, ih stands.next, byteLength_cons, Nat.add_assoc]

theorem isAscii_of_endsWord (ends : endsWord (character :: rest) = true) : IsAscii character := by
  rcases (Bool.or_eq_true _ _).mp ends with breaks | spread
  · exact isAscii_of_breaksWord character breaks
  · obtain ⟨rfl, -⟩ := List.cons_prefix_cons.mp (startsSpread_iff.mp spread)
    decide

theorem wordEnd?_eq (stands : Stands bytes offset (utf8 (character :: rest)))
    (begins : endsWord (character :: rest) = false) :
    wordEnd? bytes offset = some (offset + byteLength (character :: (wordRest rest).1)) := by
  have stop := wordStop?_eq stands
  rw [wordRest, begins] at stop
  have size := stands.length_eq
  rw [Text.length_utf8, byteLength_cons, ← wordRest_append rest, byteLength_append] at size
  have positive := character.utf8Size_pos
  rw [wordEnd?, stop, Option.map_some, Option.some.injEq]
  simp only [Bool.false_eq_true, if_false, byteLength_cons]
  omega

theorem exists_wordEnd? (stands : Stands bytes offset (utf8 (character :: rest))) :
    ∃ taken after, character :: rest = taken ++ after ∧ taken ≠ [] ∧
      wordEnd? bytes offset = some (offset + byteLength taken) := by
  cases ends : endsWord (character :: rest) with
  | false =>
      refine ⟨_, (wordRest rest).2, ?_, List.cons_ne_nil _ _, wordEnd?_eq stands ends⟩
      rw [List.cons_append, wordRest_append]
  | true =>
      have single := (isAscii_of_endsWord ends).utf8Size
      have within := stands.text_lt
      refine ⟨[character], rest, rfl, List.cons_ne_nil _ _, ?_⟩
      rw [wordEnd?, wordStop?_cons stands, if_pos ends, Option.map_some, Option.some.injEq, byteLength_cons, single]
      simp only [Text.byteLength_nil]
      omega

end TypedLiterals.Graphql.Bytewise
