import TypedLiterals.Proofs.Syntax.Comment
import TypedLiterals.Proofs.Syntax.Statement
import TypedLiterals.Proofs.Syntax.Template

/-!
How readers move through a text.

A reader takes characters from the front of what is left and counts their bytes. So every offset at which it
stands is the end of a character of the text.
-/

namespace TypedLiterals.Syntax

open Text (byteLength)

variable {text : List Char} {cursor after start : Cursor}

/-! ## What lexemes leave -/

theorem attributeStringRest_whole (quote : Char) (text : List Char) :
    (attributeStringRest quote text).1 ++ (attributeStringRest quote text).2 = text := by
  have whole := span_append (· ≠ quote) text
  unfold attributeStringRest
  split
  · next taken closing rest found =>
    rw [found] at whole
    simpa using whole
  · next taken found =>
    rwa [found] at whole

theorem regexRest?_whole {inClass : Bool} {parts : List Char × List Char}
    (found : regexRest? inClass text = some parts) : parts.1 ++ parts.2 = text := by
  fun_induction regexRest? inClass text generalizing parts with
  | case1 => cases found
  | case2 => cases found
  | case3 inClass character rest _ ih =>
      obtain ⟨inner, listed, rfl⟩ := Option.map_eq_some_iff.mp found
      rw [List.cons_append, List.cons_append, ih listed]
  | case4 => cases found
  | case5 inClass character rest _ _ flags =>
      cases found
      exact congrArg (character :: ·) (List.prefix_iff_eq_append.mp (List.takeWhile_prefix _))
  | case6 =>
      rename_i ih
      obtain ⟨inner, listed, rfl⟩ := Option.map_eq_some_iff.mp found
      rw [List.cons_append, ih listed]

theorem templateText_whole (text : List Char) : (templateText text).1 ++ (templateText text).2 = text := by
  fun_induction templateText text <;> simp_all

/-- Plain text of a template ends with the text, at a substitution or at a backtick. -/
theorem templateText_ends (text : List Char) :
    (templateText text).2 = [] ∨ (∃ rest, (templateText text).2 = '$' :: '{' :: rest) ∨
      ∃ rest, (templateText text).2 = '\x60' :: rest := by
  fun_induction templateText text <;> simp_all

/-! ## Cursors -/

namespace Cursor

/-- Whether a cursor has come from another one over the characters between them. -/
def Reaches (cursor after : Cursor) : Prop :=
  after.rest <:+ cursor.rest ∧ after.stop = cursor.stop

namespace Reaches

theorem refl (cursor : Cursor) : cursor.Reaches cursor :=
  ⟨List.suffix_refl _, rfl⟩

theorem trans {middle : Cursor} (first : cursor.Reaches middle) (second : middle.Reaches after) :
    cursor.Reaches after :=
  ⟨second.1.trans first.1, second.2.trans first.2⟩

theorem behind {parts : List Char × List Char} (whole : parts.1 ++ parts.2 = cursor.rest) :
    cursor.Reaches (cursor.behind parts) := by
  refine ⟨?_, stop_behind whole⟩
  rw [behind_eq, ← whole]
  exact List.suffix_append _ _

theorem skip (count : Nat) (cursor : Cursor) : cursor.Reaches (cursor.skip count) :=
  behind (by rw [List.splitAt_eq, List.take_append_drop])

theorem span (test : Char → Bool) (cursor : Cursor) : cursor.Reaches (cursor.behind (cursor.rest.span test)) :=
  behind (span_append test cursor.rest)

theorem skipSpace (cursor : Cursor) : cursor.Reaches cursor.skipSpace :=
  span isSpace cursor

theorem comment? (found : cursor.comment? = some after) : cursor.Reaches after :=
  ⟨comment?_suffix found, stop_comment? found⟩

theorem trivia (cursor : Cursor) : cursor.Reaches cursor.trivia.2 :=
  ⟨trivia_suffix _ cursor, stop_trivia _ cursor⟩

theorem close (cursor : Cursor) (closer : Char) : cursor.Reaches (cursor.close closer) := by
  unfold Cursor.close
  split
  · exact skip 1 cursor
  · exact refl cursor

theorem exists_taken (reaches : cursor.Reaches after) :
    ∃ taken, cursor.rest = taken ++ after.rest ∧ after.offset = cursor.offset + byteLength taken := by
  obtain ⟨⟨taken, whole⟩, stop⟩ := reaches
  refine ⟨taken, whole.symm, ?_⟩
  rw [Cursor.stop, Cursor.stop, ← whole, Text.byteLength_append] at stop
  omega

theorem le (reaches : cursor.Reaches after) : cursor.offset ≤ after.offset := by
  obtain ⟨taken, _, offset⟩ := reaches.exists_taken
  omega

end Reaches

end Cursor

/-! ## Import statements -/

open Cursor (Reaches)

namespace Piece

variable {piece first : Piece}

/-- Whether a piece was read from a cursor, and its tree ends where the reading goes on. -/
structure From (cursor : Cursor) (piece : Piece) : Prop where
  reaches : cursor.Reaches piece.after
  stop : piece.tree.span.stop = piece.after.offset

theorem from_of_piece? (found : cursor.piece? = some piece) : piece.From cursor := by
  obtain ⟨kind, taken, rest, _, whole, rfl⟩ := piece?_eq_some found
  exact ⟨(Reaches.trivia cursor).trans (.behind whole.symm), rfl⟩

theorem Names.reaches {front : List Tree} {after : Cursor} (names : first.Names front after) :
    first.after.Reaches after := by
  cases names with
  | plain => exact .refl _
  | modified next => exact (from_of_piece? next).reaches

theorem reaches_specifier (first : Piece) : first.after.Reaches (specifier first).2 := by
  have made := first.specifies_specifier
  generalize specifier first = read at made ⊢
  cases made with
  | named names => exact names.reaches
  | renamed names next last => exact names.reaches.trans ((from_of_piece? next).reaches.trans (from_of_piece? last).reaches)

end Piece

open Piece (from_of_piece? reaches_specifier)

variable {first : Piece} {parts : List Tree} {read : List Tree × Cursor} {result : Tree × Cursor} {keyword : Tree}

theorem reaches_specifiers {count : Nat} (found : specifiers count cursor parts = some read) :
    cursor.Reaches read.2 := by
  induction count generalizing cursor parts with
  | zero => cases found
  | succ count ih =>
      rw [specifiers] at found
      obtain ⟨piece, next, found⟩ := Option.bind_eq_some_iff.mp found
      have here := (from_of_piece? next).reaches
      split at found
      · cases found
        exact here
      · split at found
        · exact here.trans (ih found)
        · split at found
          · exact here.trans ((reaches_specifier piece).trans (ih found))
          · cases found

theorem reaches_importGroup? (found : importGroup? first = some result) : first.after.Reaches result.2 := by
  cases groups_of_importGroup? found with
  | names listed => exact reaches_specifiers listed
  | space next last => exact (from_of_piece? next).reaches.trans (from_of_piece? last).reaches

theorem reaches_importClause? (found : importClause? first = some result) : first.after.Reaches result.2 := by
  cases binds_of_importClause? found with
  | name => exact .refl _
  | both next opens listed =>
      have grouped := reaches_importGroup? listed
      exact (from_of_piece? next).reaches.trans ((from_of_piece? opens).reaches.trans grouped)
  | group listed =>
      have grouped := reaches_importGroup? listed
      exact grouped

/-- Whether parts of a statement, last first, go on from a cursor and end where the reading goes on. -/
structure Extends (cursor : Cursor) (read : List Tree × Cursor) : Prop where
  reaches : cursor.Reaches read.2
  ends : ∀ tree, read.1.head? = some tree → tree.span.stop = read.2.offset
  stays : read.1 = [] → read.2 = cursor

theorem Extends.none (cursor : Cursor) : Extends cursor ([], cursor) :=
  ⟨.refl cursor, nofun, fun _ => rfl⟩

theorem Piece.From.extends {piece : Piece} (here : piece.From cursor) :
    Extends cursor (piece.reversed piece.tree, piece.after) where
  reaches := here.reaches
  ends tree last := by
    cases last
    exact here.stop
  stays := nofun

theorem extends_semicolon (cursor : Cursor) : Extends cursor (semicolon cursor) := by
  rcases semicolon_cases cursor with same | ⟨piece, found, same⟩
  · rw [same]
    exact .none cursor
  · rw [same]
    exact (from_of_piece? found).extends

theorem reaches_attributeParts {count : Nat} (found : attributeParts count cursor parts = some read) :
    cursor.Reaches read.2 ∧ ∃ last rest, read.1 = last :: rest ∧ last.span.stop = read.2.offset := by
  induction count generalizing cursor parts with
  | zero => cases found
  | succ count ih =>
      rw [attributeParts] at found
      obtain ⟨piece, next, found⟩ := Option.bind_eq_some_iff.mp found
      have here := from_of_piece? next
      split at found
      · cases found
        exact ⟨here.reaches, piece.tree, _, rfl, here.stop⟩
      · obtain ⟨later, ends⟩ := ih found
        exact ⟨here.reaches.trans later, ends⟩

theorem extends_attributes? (found : attributes? cursor = some read) : Extends cursor read := by
  obtain ⟨word, brace, count, inner, next, opens, listed, rfl⟩ := attributes?_eq_some found
  obtain ⟨later, last, rest, whole, stop⟩ := reaches_attributeParts listed
  refine ⟨(from_of_piece? next).reaches.trans ((from_of_piece? opens).reaches.trans later), ?_, nofun⟩
  intro tree same
  cases same
  rw [Tree.ofReversed, whole]
  exact stop

theorem Extends.append (extends_ : Extends cursor read)
    (ends : ∀ tree, parts.head? = some tree → tree.span.stop = cursor.offset) :
    ∀ tree, (read.1 ++ parts).head? = some tree → tree.span.stop = read.2.offset := by
  intro tree last
  by_cases none : read.1 = []
  · rw [extends_.stays none]
    exact ends tree (by simpa [none] using last)
  · rw [List.head?_append_of_ne_nil _ none] at last
    exact extends_.ends tree last

theorem Tree.span_ofReversed {kind : Kind} {trees : List Tree} {first last : Tree}
    (begins : trees.getLast? = some first) (ends : trees.head? = some last) :
    (ofReversed kind trees).span = ⟨first.span.start, last.span.stop⟩ := by
  simp [ofReversed, Tree.span, begins, ends]

/-- A statement begins with its keyword and ends where the reading goes on. -/
theorem reaches_finishImport (begins : parts.getLast? = some keyword)
    (ends : ∀ tree, parts.head? = some tree → tree.span.stop = cursor.offset) :
    cursor.Reaches (finishImport parts cursor).2 ∧ (finishImport parts cursor).1.kind = .importStatement ∧
      (finishImport parts cursor).1.span = ⟨keyword.span.start, (finishImport parts cursor).2.offset⟩ := by
  have attributed : Extends cursor ((attributes? cursor).getD ([], cursor)) := by
    cases found : attributes? cursor with
    | none => exact .none cursor
    | some read => exact extends_attributes? found
  rw [finishImport]
  dsimp only
  generalize (attributes? cursor).getD ([], cursor) = attributes at attributed
  have ended := extends_semicolon attributes.2
  generalize semicolon attributes.2 = ending at ended
  refine ⟨attributed.reaches.trans ended.reaches, rfl, ?_⟩
  have present : ending.1 ++ attributes.1 ++ parts ≠ [] := by
    rintro none
    rw [(List.append_eq_nil_iff.mp none).2] at begins
    cases begins
  obtain ⟨last, rest, whole⟩ := List.exists_cons_of_ne_nil present
  have stop := ended.append (attributed.append ends) last (by rw [← List.append_assoc, whole]; rfl)
  rw [Tree.span_ofReversed (by rw [List.getLast?_append, begins]; rfl) (by rw [whole]; rfl), stop]

theorem reaches_importStatement? (found : importStatement? keyword cursor = some result) :
    cursor.Reaches result.2 ∧ result.1.kind = .importStatement ∧
      result.1.span = ⟨keyword.span.start, result.2.offset⟩ := by
  have named : ∀ {from_ : Cursor} {piece : Piece}, piece.From from_ →
      (piece.tree.withRole .source).span.stop = piece.after.offset := by
    intro from_ piece here
    rw [← here.stop]
    cases piece.tree
    rfl
  cases imports_of_importStatement? found with
  | @bare first next =>
      have here := from_of_piece? next
      have opens : (first.reversed (first.tree.withRole .source) ++ [keyword]).getLast? = some keyword := by simp
      obtain ⟨later, span⟩ := reaches_finishImport opens fun tree last => by
        cases last
        exact named here
      exact ⟨here.reaches.trans later, span⟩
  | @clause first begins link source clause front next modified read joins last =>
      have here := from_of_piece? next
      obtain ⟨opens, beginsAt⟩ : front.getLast? = some keyword ∧ cursor.Reaches begins.after := by
        cases modified with
        | plain => exact ⟨rfl, here.reaches⟩
        | modified follows => exact ⟨by simp, here.reaches.trans (from_of_piece? follows).reaches⟩
      have sourced := from_of_piece? last
      have clauseAt := reaches_importClause? read
      have whole : (source.reversed (source.tree.withRole .source) ++ link.reversed (.leaf .keyword link.tree.span) ++
          begins.reversed clause.1 ++ front).getLast? = some keyword := by
        rw [List.getLast?_append, opens]
        rfl
      obtain ⟨later, span⟩ := reaches_finishImport whole fun tree last => by
        cases last
        exact named sourced
      exact ⟨beginsAt.trans (clauseAt.trans ((from_of_piece? joins).reaches.trans (sourced.reaches.trans later))),
        span⟩

end TypedLiterals.Syntax
