import TypedLiterals.Proofs.Graphql.Bytewise.Token
import TypedLiterals.Proofs.Graphql.Value

/-!
Block strings, re-printed from slices.

Lines are cut out of a text where line ends are found among its bytes, and indentation is cut off a line by its
width. A slice that is out of range, or that starts or ends inside a character, has no result. There is always one: a
line end is a character, and what is cut off a line are blanks of one byte each, or the whole line where it is shorter.
-/

namespace TypedLiterals.Graphql.Bytewise

open BlockString (OneLine Lined lined_lines lines indentation isBlank
  least commonIndentation isBlankCharacter_of_mem_take fits_commonIndentation tripleQuote
  needsLineBeforeQuotes needsLineBeforeQuotes_iff escapedTripleQuote quote printBody reprint reprint_quote)
open Text (utf8 byteLength byteLength_cons byteLength_append byteIs slice? sliceFrom? slice?_append sliceFrom?_append
  IsAscii Stands)

/-! ## Reading by slices -/

/-- The lines of a text from one offset on, when none ends before another. -/
def splitFrom? (text : List Char) (start pos : Nat) : Option (List (List Char)) :=
  if pos < (utf8 text).length then do
    let byte ← (utf8 text)[pos]?
    if byteIs (· == '\n') byte then do
      let line ← slice? text start pos
      let later ← splitFrom? text (pos + 1) (pos + 1)
      some (line :: later)
    else if byteIs (· == '\r') byte then do
      let line ← slice? text start pos
      let later ←
        (if (utf8 text)[pos + 1]?.any (byteIs (· == '\n')) then splitFrom? text (pos + 2) (pos + 2)
        else splitFrom? text (pos + 1) (pos + 1))
      some (line :: later)
    else splitFrom? text start (pos + 1)
  else do
    let line ← sliceFrom? text start
    some [line]
termination_by (utf8 text).length - pos

def splitLines? (text : List Char) : Option (List (List Char)) :=
  splitFrom? text 0 0

/-- The bytes of blanks that a line begins with. -/
def leadingBlanks (line : List Char) : Nat :=
  ((utf8 line).takeWhile (byteIs isBlankCharacter)).length

def isBlankLine (line : List Char) : Bool :=
  leadingBlanks line = byteLength line

def indentation? (text : List Char) : Option Nat := do
  let texts ← splitLines? text
  some (least (((texts.drop 1).filter (!isBlankLine ·)).map leadingBlanks))

/-- A line from a width on, or its end. -/
def dedentLine? (width : Nat) (line : List Char) : Option (List Char) :=
  sliceFrom? line (min width (byteLength line))

def dedent? (width : Nat) : List (List Char) → Option (List (List Char))
  | [] => some []
  | first :: rest => do
    let later ← rest.mapM (dedentLine? width)
    some (first :: later)

/-- The value of a block string. -/
def value? (body : List Char) : Option (List Char) := do
  let width ← indentation? body
  let texts ← splitLines? body
  let texts ← dedent? width texts
  some (List.intercalate ['\n'] ((texts.dropWhile isBlankLine).reverse.dropWhile isBlankLine).reverse)

/-- A body on a line of its own when its text is indented. -/
def openBody (width : Nat) (text : List Char) : List Char :=
  if 0 < width then '\n' :: text else text

/-- A body kept away from the quotes behind it. -/
def closeBody (text : List Char) : List Char :=
  if needsLineBeforeQuotes text then text ++ ['\n'] else text

/-- A token re-printed when it is a block string. -/
def reprint? (token : List Char) : Option (List Char) :=
  if byteLength token < 6 ∨ ¬ tripleQuote <+: token ∨ ¬ tripleQuote <:+ token then some token
  else do
    let body ← slice? token 3 (byteLength token - 3)
    let text ← value? body
    let width ← indentation? text
    some (tripleQuote ++ closeBody (openBody width text) ++ tripleQuote)

variable {text front line rest body token : List Char} {texts : List (List Char)} {width start : Nat}
  {character : Char}

/-! ## Lines -/

theorem splitFrom?_high {offset : Nat} {byte : UInt8} {more : List UInt8}
    (stands : Stands (utf8 text) offset (byte :: more)) (high : 128 ≤ byte.toNat) :
    splitFrom? text start offset = splitFrom? text start (offset + 1) := by
  rw [splitFrom?, if_pos stands.lt, stands.head]
  simp only [Text.byteIs_high high, Bool.false_eq_true, if_false, Option.bind_eq_bind, Option.bind_some]

theorem splitFrom?_cons {offset : Nat} (stands : Stands (utf8 text) offset (utf8 (character :: rest))) :
    splitFrom? text start offset =
      if character = '\n' then do
        let line ← slice? text start offset
        let later ← splitFrom? text (offset + 1) (offset + 1)
        some (line :: later)
      else if character = '\r' then do
        let line ← slice? text start offset
        let later ←
          (if rest.head? = some '\n' then splitFrom? text (offset + 2) (offset + 2)
          else splitFrom? text (offset + 1) (offset + 1))
        some (line :: later)
      else splitFrom? text start (offset + 1) := by
  have newlineAscii : ∀ other, (other == '\n') = true → IsAscii other := isAscii_of_beq (by decide)
  obtain ⟨byte, head, reads⟩ := stands.exists_head
  have carriage := reads (· == '\r') (isAscii_of_beq (by decide))
  rw [splitFrom?, if_pos stands.text_lt, head]
  simp only [reads _ newlineAscii, carriage, beq_iff_eq, Option.bind_eq_bind, Option.bind_some]
  split
  · rfl
  · split
    · next found =>
        subst found
        have behind : Stands (utf8 text) (offset + 1) (utf8 rest) := stands.next
        have second : rest.head?.any (· == '\n') = true ↔ rest.head? = some '\n' := by
          cases rest <;> simp
        simp only [behind.any_head newlineAscii, second]
    · rfl

theorem splitFrom?_oneLine (inLine : OneLine line) (start : Nat) :
    splitFrom? (front ++ (line ++ rest)) start (byteLength front) =
      splitFrom? (front ++ (line ++ rest)) start (byteLength front + byteLength line) := by
  induction line generalizing front with
  | nil => rfl
  | cons character line ih =>
      have stands := Stands.ofText front (character :: line ++ rest)
      obtain ⟨plain, others⟩ := List.forall_mem_cons.mp inLine
      simp only [isLineEnd, Bool.or_eq_false_iff, decide_eq_false_iff_not] at plain
      have next := @ih (front ++ [character]) others
      simp only [List.append_assoc, byteLength_append] at next
      rw [splitFrom?_cons stands, if_neg plain.1, if_neg plain.2, stands.inside splitFrom?_high, byteLength_cons,
        ← Nat.add_assoc]
      exact next

/-- A line is cut off at its end, and the text behind it is read on. -/
theorem splitFrom?_lineEnd (inLine : OneLine line) (ending : List Char)
    (found : ending = ['\n'] ∨ ending = ['\r', '\n'] ∨ ending = ['\r'] ∧ rest.head? ≠ some '\n')
    (later : ∀ front, splitFrom? (front ++ rest) (byteLength front) (byteLength front) = some texts) :
    splitFrom? (front ++ (line ++ (ending ++ rest))) (byteLength front) (byteLength front) =
      some (line :: texts) := by
  have cut := slice?_append front line (ending ++ rest)
  have next := later (front ++ line ++ ending)
  have stands := Stands.ofText (front ++ line) (ending ++ rest)
  simp only [List.append_assoc, byteLength_append, ← Nat.add_assoc] at next stands
  rw [splitFrom?_oneLine inLine]
  suffices cutOff : splitFrom? (front ++ (line ++ (ending ++ rest))) (byteLength front)
      (byteLength front + byteLength line) = (splitFrom? (front ++ (line ++ (ending ++ rest)))
        (byteLength front + byteLength line + byteLength ending)
        (byteLength front + byteLength line + byteLength ending)).bind fun later => some (line :: later) by
    rw [cutOff, next, Option.bind_some]
  obtain rfl | rfl | ⟨rfl, alone⟩ := found
  · rw [splitFrom?_cons stands, if_pos rfl, cut]
    rfl
  · rw [splitFrom?_cons stands, if_neg (by decide), if_pos rfl, cut]
    rfl
  · rw [splitFrom?_cons (show Stands _ _ (utf8 ('\r' :: rest)) from stands), if_neg (by decide), if_pos rfl, cut,
      if_neg alone]
    rfl

theorem splitFrom?_lined (lined : Lined rest texts) (front : List Char) :
    splitFrom? (front ++ rest) (byteLength front) (byteLength front) = some texts := by
  induction lined generalizing front with
  | @last line inLine =>
      have behind := Stands.ofText (front ++ line) []
      rw [← List.append_nil line, splitFrom?_oneLine inLine, ← List.append_assoc, ← byteLength_append, splitFrom?,
        if_neg behind.not_lt, List.append_nil]
      simp [sliceFrom?_append]
  | feed inLine _ ih => exact splitFrom?_lineEnd inLine ['\n'] (.inl rfl) ih
  | both inLine _ ih => exact splitFrom?_lineEnd inLine ['\r', '\n'] (.inr (.inl rfl)) ih
  | carriage inLine alone _ ih => exact splitFrom?_lineEnd inLine ['\r'] (.inr (.inr ⟨rfl, alone⟩)) ih

theorem splitLines?_eq (text : List Char) : splitLines? text = some (lines text) :=
  splitFrom?_lined (lined_lines text) []

/-! ## Indentation -/

theorem isAscii_of_isBlankCharacter (character : Char) (blank : isBlankCharacter character = true) :
    IsAscii character :=
  isAscii_of_isSeparator character (by simp [isSeparator, blank])

theorem leadingBlanks_eq (line : List Char) : leadingBlanks line = indentation line := by
  induction line with
  | nil => rfl
  | cons character line ih =>
      rw [leadingBlanks, indentation, List.takeWhile_cons]
      obtain ⟨ascii, encoded⟩ | ⟨wide, byte, inner, encoded, -, high, -⟩ := Text.utf8_cons_cases character line
      · rw [encoded, List.takeWhile_cons, ascii.byteIs]
        split
        · exact congrArg (· + 1) ih
        · rfl
      · have inked : isBlankCharacter character = false := by
          rw [Bool.eq_false_iff]
          exact fun blank => wide (isAscii_of_isBlankCharacter character blank)
        rw [encoded, List.takeWhile_cons, Text.byteIs_high high, inked]
        rfl

theorem byteLength_of_blanks (blanks : ∀ character ∈ line, isBlankCharacter character = true) :
    byteLength line = line.length :=
  Text.byteLength_of_ascii fun character member => isAscii_of_isBlankCharacter character (blanks character member)

theorem isBlankLine_eq (line : List Char) : isBlankLine line = isBlank line := by
  rw [isBlankLine, leadingBlanks_eq, Bool.eq_iff_iff, decide_eq_true_eq, isBlank, List.all_eq_true]
  constructor
  · intro same
    have longer := Text.length_le_byteLength line
    have begins := List.takeWhile_prefix isBlankCharacter (l := line)
    rw [← same] at longer
    have whole := begins.eq_of_length (Nat.le_antisymm begins.length_le longer)
    exact fun character member => List.mem_takeWhile_imp (whole ▸ member)
  · intro blanks
    rw [byteLength_of_blanks blanks, indentation, List.takeWhile_eq_self_iff.mpr blanks]

theorem indentation?_eq (text : List Char) : indentation? text = some (commonIndentation text) := by
  have blank : isBlankLine = isBlank := funext isBlankLine_eq
  have leading : leadingBlanks = indentation := funext leadingBlanks_eq
  rw [indentation?, splitLines?_eq, blank, leading]
  rfl

theorem dedentLine?_eq (fits : isBlank line = true ∨ width ≤ indentation line) :
    dedentLine? width line = some (line.drop width) := by
  have taken := byteLength_of_blanks (isBlankCharacter_of_mem_take fits)
  have cut := sliceFrom?_append (line.take width) (line.drop width)
  have longer := Text.length_le_byteLength line
  rw [List.take_append_drop, taken, List.length_take] at cut
  have place : min width (byteLength line) = min width line.length := by
    rcases Nat.le_total width line.length with enough | short
    · omega
    · rw [List.take_of_length_le short] at taken
      omega
  rw [dedentLine?, place, cut]

theorem mapM_dedentLine? (fits : ∀ line ∈ texts, isBlank line = true ∨ width ≤ indentation line) :
    texts.mapM (dedentLine? width) = some (texts.map (List.drop width)) := by
  induction texts with
  | nil => rfl
  | cons line texts ih =>
      obtain ⟨first, others⟩ := List.forall_mem_cons.mp fits
      rw [List.mapM_cons, dedentLine?_eq first, ih others]
      rfl

theorem dedent?_eq (fits : ∀ line ∈ texts.drop 1, isBlank line = true ∨ width ≤ indentation line) :
    dedent? width texts = some (BlockString.dedent width texts) := by
  cases texts with
  | nil => rfl
  | cons first rest =>
      have later : ∀ line ∈ rest, isBlank line = true ∨ width ≤ indentation line := fits
      rw [dedent?, mapM_dedentLine? later]
      rfl

theorem value?_eq (body : List Char) : value? body = some (BlockString.value body) := by
  have blank : isBlankLine = isBlank := funext isBlankLine_eq
  have cut : dedent? (commonIndentation body) (lines body) =
      some (BlockString.dedent (commonIndentation body) (lines body)) :=
    dedent?_eq fun line member => fits_commonIndentation member
  rw [value?, indentation?_eq, splitLines?_eq, blank]
  simp only [Option.bind_eq_bind, Option.bind_some, cut]
  rfl

/-! ## Re-printing -/

theorem exists_body (begins : tripleQuote <+: token) (ends : tripleQuote <:+ token) (size : 6 ≤ byteLength token) :
    ∃ body, token = quote body := by
  obtain ⟨rest, rfl⟩ := begins
  rcases Nat.lt_or_ge rest.length 3 with short | long
  · -- Closing quotes that share a character with the opening ones leave no room for six bytes.
    have quotes : rest <:+ tripleQuote :=
      List.suffix_of_suffix_length_le (List.suffix_append _ _) ends (Nat.le_of_lt short)
    have quotesAscii : ∀ character ∈ tripleQuote, IsAscii character := Text.isAscii_of_all (by decide)
    have ascii : ∀ character ∈ rest, IsAscii character := fun character member =>
      quotesAscii character (quotes.subset member)
    have length : byteLength (tripleQuote ++ rest) = 3 + byteLength rest := byteLength_append _ _
    rw [Text.byteLength_of_ascii ascii] at length
    omega
  · obtain ⟨body, rfl⟩ : tripleQuote <:+ rest :=
      List.suffix_of_suffix_length_le ends (List.suffix_append _ _) long
    exact ⟨body, (List.append_assoc _ _ _).symm⟩

theorem needsLineBeforeQuotes_newline (text : List Char) :
    needsLineBeforeQuotes ('\n' :: text) = needsLineBeforeQuotes text := by
  have ends : ∀ {first : Char} {pattern : List Char}, first ≠ '\n' →
      (first :: pattern <:+ '\n' :: text ↔ first :: pattern <:+ text) := fun other => by
    rw [List.suffix_cons_iff]
    exact or_iff_right fun same => other (List.cons.inj same).1
  rw [Bool.eq_iff_iff, needsLineBeforeQuotes_iff, needsLineBeforeQuotes_iff, escapedTripleQuote, ends (by decide),
    ends (by decide), ends (by decide)]

theorem closeBody_openBody (text : List Char) :
    closeBody (openBody (commonIndentation text) text) = printBody text := by
  have same : needsLineBeforeQuotes (openBody (commonIndentation text) text) = needsLineBeforeQuotes text := by
    unfold openBody
    split
    · exact needsLineBeforeQuotes_newline text
    · rfl
  rw [closeBody, same, printBody, openBody]
  split <;> split <;> simp

theorem reprint_of_not_quoted (other : byteLength token < 6 ∨ ¬ tripleQuote <+: token ∨ ¬ tripleQuote <:+ token) :
    reprint token = token := by
  have none : BlockString.body? token = none := by
    have longer := Text.length_le_byteLength token
    simp only [BlockString.body?, Bool.and_eq_true, decide_eq_true_eq, List.isPrefixOf_iff_prefix,
      List.isSuffixOf_iff_suffix, ite_eq_right_iff]
    rintro ⟨⟨size, begins⟩, ends⟩
    rcases other with short | apart | apart
    · omega
    · exact absurd begins apart
    · exact absurd ends apart
  rw [reprint, none]

theorem reprint?_eq (token : List Char) : reprint? token = some (reprint token) := by
  rw [reprint?]
  split
  · next other => rw [reprint_of_not_quoted other]
  · next whole =>
      simp only [not_or, Nat.not_lt, not_not] at whole
      obtain ⟨body, rfl⟩ := exists_body whole.2.1 whole.2.2 whole.1
      have size : byteLength (quote body) - 3 = byteLength tripleQuote + byteLength body := by
        rw [quote, byteLength_append, byteLength_append]
        exact Nat.add_sub_cancel _ 3
      have cut := slice?_append tripleQuote body tripleQuote
      rw [← size, ← List.append_assoc] at cut
      rw [reprint_quote, show slice? (quote body) 3 (byteLength (quote body) - 3) = some body from cut]
      simp only [Option.bind_eq_bind, Option.bind_some, value?_eq, indentation?_eq, closeBody_openBody]
      rfl

end TypedLiterals.Graphql.Bytewise
