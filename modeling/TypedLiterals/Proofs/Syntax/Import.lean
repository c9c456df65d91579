import TypedLiterals.Proofs.Syntax.Reading

/-!
Namespace imports are read as they are written.

The reader takes a namespace import at the top of a program as one statement, whatever follows it, and what
it has read it keeps to the end. So imports on lines of their own are all found among the statements.
-/

namespace TypedLiterals.Syntax

open Text (byteLength)

@[simp] theorem Tree.kind_leaf (kind : Kind) (span : Span) : (Tree.leaf kind span).kind = kind := rfl

@[simp] theorem Tree.span_leaf (kind : Kind) (span : Span) : (Tree.leaf kind span).span = span := rfl

@[simp] theorem Tree.withRole_leaf (role : Role) (kind : Kind) (span : Span) :
    (Tree.leaf kind span).withRole role = .node kind (some role) span [] := rfl

@[simp] theorem Tree.span_node (kind : Kind) (role : Option Role) (span : Span) (children : List Tree) :
    (Tree.node kind role span children).span = span := rfl

/-! ## Written imports -/

/-- The name and the module text of a namespace import. -/
structure NamespaceImport where
  name : List Char
  specifier : List Char

namespace NamespaceImport

/-- What stands behind the keyword of a namespace import. -/
def behindKeyword (line : NamespaceImport) (rest : List Char) : List Char :=
  ' ' :: '*' :: ' ' :: 'a' :: 's' :: ' ' :: (line.name ++ ' ' :: 'f' :: 'r' :: 'o' :: 'm' :: ' ' :: '\x27' ::
    (line.specifier ++ '\x27' :: ';' :: rest))

/-- A namespace import as it is written. -/
def write (line : NamespaceImport) (rest : List Char) : List Char :=
  'i' :: 'm' :: 'p' :: 'o' :: 'r' :: 't' :: line.behindKeyword rest

/-- Namespace imports on lines of their own. -/
def writeAll (rest : List Char) : List NamespaceImport → List Char
  | [] => rest
  | [line] => line.write rest
  | line :: next :: lines => line.write ('\n' :: writeAll rest (next :: lines))

/-- Where the name ends when the import begins at an offset. -/
def nameEnd (offset : Nat) (line : NamespaceImport) : Nat :=
  offset + 12 + byteLength line.name

/-- Where the module text ends. -/
def quoteEnd (offset : Nat) (line : NamespaceImport) : Nat :=
  line.nameEnd offset + 6 + byteLength ('\x27' :: (line.specifier ++ ['\x27']))

/-- The clause of a namespace import that begins at an offset. -/
def clause (offset : Nat) (line : NamespaceImport) : Tree :=
  .node .importClause none ⟨offset + 7, line.nameEnd offset⟩ [
    .node .namespaceImport none ⟨offset + 7, line.nameEnd offset⟩ [
      .leaf .punctuation ⟨offset + 7, offset + 8⟩,
      .leaf .keyword ⟨offset + 9, offset + 11⟩,
      .leaf .identifier ⟨offset + 12, line.nameEnd offset⟩]]

/-- The tree of a namespace import that begins at an offset. -/
def tree (offset : Nat) (line : NamespaceImport) : Tree :=
  .node .importStatement none ⟨offset, line.quoteEnd offset + 1⟩ [
    .leaf .keyword ⟨offset, offset + 6⟩,
    line.clause offset,
    .leaf .keyword ⟨line.nameEnd offset + 1, line.nameEnd offset + 5⟩,
    .node .string (some .source) ⟨line.nameEnd offset + 6, line.quoteEnd offset⟩ [],
    .leaf .punctuation ⟨line.quoteEnd offset, line.quoteEnd offset + 1⟩]

/-- Whether a name and a module text can be read as they are. -/
structure Legible (line : NamespaceImport) : Prop where
  starts : ∃ first more, line.name = first :: more ∧ isIdentifierStart first = true
  parts : ∀ part ∈ line.name, isIdentifierPart part = true
  quiet : ∀ character ∈ line.specifier,
    character ≠ '\x27' ∧ character ≠ '\\' ∧ character ≠ '\n' ∧ character ≠ '\r'

variable {line : NamespaceImport} {lines : List NamespaceImport} {offset : Nat} {rest : List Char}

theorem write_eq_append (line : NamespaceImport) (rest : List Char) : line.write rest = line.write [] ++ rest := by
  simp [write, behindKeyword]

theorem byteLength_write (offset : Nat) (line : NamespaceImport) :
    offset + byteLength (line.write []) = line.quoteEnd offset + 1 := by
  have keyword : byteLength "import * as ".toList = 12 := rfl
  have link : byteLength " from ".toList = 6 := rfl
  have split : line.write [] = "import * as ".toList ++ (line.name ++ (" from ".toList ++
      (('\x27' :: (line.specifier ++ ['\x27'])) ++ [';']))) := by
    simp [write, behindKeyword]
  have semicolon : byteLength [';'] = 1 := rfl
  rw [split, Text.byteLength_append, Text.byteLength_append, Text.byteLength_append, Text.byteLength_append,
    keyword, link, semicolon, quoteEnd, nameEnd]
  omega

/-! ## Reading one import -/

theorem isSpace_blank : ∀ character ∈ [' '], isSpace character = true :=
  List.forall_iff_forall_mem.mp (by decide)

theorem identifierRest_blank (rest : List Char) : identifierRest 0 (' ' :: rest) = ([], ' ' :: rest) :=
  identifierRest_of_not_part (by decide) (by decide) rest

theorem Legible.piece? (legible : line.Legible) (rest : List Char) :
    (Cursor.mk (offset + 11) (' ' :: (line.name ++ ' ' :: rest))).piece? =
      some ⟨[], .leaf .identifier ⟨offset + 12, line.nameEnd offset⟩, line.name,
        ⟨line.nameEnd offset, ' ' :: rest⟩⟩ := by
  obtain ⟨first, more, named, starts⟩ := legible.starts
  have parts := legible.parts
  rw [nameEnd]
  rw [named] at parts ⊢
  have part := parts first List.mem_cons_self
  have solid : isSpace first = false := by
    simp only [isIdentifierPart, Bool.and_eq_true, Bool.not_eq_true'] at part
    exact part.1.2
  have plain : ∀ mark ∈ ['/', '\\'], first ≠ mark := by
    rintro mark inside rfl
    have other : ∀ mark ∈ ['/', '\\'], isIdentifierPart mark = false :=
      List.forall_iff_forall_mem.mp (by decide)
    rw [other first inside] at part
    cases part
  exact piece?_word isSpace_blank solid (plain '/' (by decide)) starts (plain '\\' (by decide))
    (fun part inside => parts part (List.mem_cons_of_mem _ inside)) (identifierRest_blank rest)

theorem importClause?_of_legible (legible : line.Legible) (rest : List Char) :
    importClause? ⟨[], .leaf .punctuation ⟨offset + 7, offset + 8⟩, ['*'],
        ⟨offset + 8, ' ' :: 'a' :: 's' :: ' ' :: (line.name ++ ' ' :: rest)⟩⟩ =
      some (line.clause offset, ⟨line.nameEnd offset, ' ' :: rest⟩) := by
  have link : ∀ rest, (Cursor.mk (offset + 8) (' ' :: 'a' :: 's' :: ' ' :: rest)).piece? =
      some ⟨[], .leaf .identifier ⟨offset + 9, offset + 11⟩, ['a', 's'], ⟨offset + 11, ' ' :: rest⟩⟩ :=
    fun rest => @piece?_word (' ' :: rest) 'a' [' '] (offset + 8) ['s'] isSpace_blank (by decide) (by decide)
      (by decide) (by decide) (List.forall_iff_forall_mem.mp (by decide)) (identifierRest_blank rest)
  simp [importClause?, importGroup?, link, legible.piece?, Piece.isWord, Piece.isMark, Piece.isText,
    Piece.reversed, Tree.ofReversed, clause]

theorem finishImport_semicolon (stop : Nat) (parts : List Tree) (rest : List Char) :
    finishImport parts ⟨stop, ';' :: rest⟩ =
      (.ofReversed .importStatement (.leaf .punctuation ⟨stop, stop + 1⟩ :: parts), ⟨stop + 1, rest⟩) := by
  have mark : (Cursor.mk stop (';' :: rest)).piece? =
      some ⟨[], .leaf .punctuation ⟨stop, stop + 1⟩, [';'], ⟨stop + 1, rest⟩⟩ :=
    @piece?_mark rest ';' [] stop nofun (by decide) (by decide) (by rfl) (by decide)
  have goesOn : endsStatement (rest.length + 1) (';' :: rest) = false := by
    rw [endsStatement.eq_def]
    rfl
  simp [finishImport, attributes?, semicolon, goesOn, mark, Piece.isText, Piece.isWord, Piece.isMark,
    Piece.reversed]

theorem importStatement?_of_legible (legible : line.Legible) (rest : List Char) :
    importStatement? (.leaf .keyword ⟨offset, offset + 6⟩) ⟨offset + 6, line.behindKeyword rest⟩ =
      some (line.tree offset, ⟨line.quoteEnd offset + 1, rest⟩) := by
  have star : ∀ rest, (Cursor.mk (offset + 6) (' ' :: '*' :: rest)).piece? =
      some ⟨[], .leaf .punctuation ⟨offset + 7, offset + 8⟩, ['*'], ⟨offset + 8, rest⟩⟩ := fun rest =>
    piece?_mark isSpace_blank (by decide) (by decide) (by rfl) (by decide)
  have link : ∀ rest, (Cursor.mk (line.nameEnd offset) (' ' :: 'f' :: 'r' :: 'o' :: 'm' :: ' ' :: rest)).piece? =
      some ⟨[], .leaf .identifier ⟨line.nameEnd offset + 1, line.nameEnd offset + 5⟩, ['f', 'r', 'o', 'm'],
        ⟨line.nameEnd offset + 5, ' ' :: rest⟩⟩ := fun rest =>
    @piece?_word (' ' :: rest) 'f' [' '] (line.nameEnd offset) ['r', 'o', 'm'] isSpace_blank (by decide)
      (by decide) (by decide) (by decide) (List.forall_iff_forall_mem.mp (by decide)) (identifierRest_blank rest)
  have source : (Cursor.mk (line.nameEnd offset + 5)
      (' ' :: '\x27' :: (line.specifier ++ '\x27' :: ';' :: rest))).piece? =
      some ⟨[], .leaf .string ⟨line.nameEnd offset + 6, line.quoteEnd offset⟩,
        '\x27' :: (line.specifier ++ ['\x27']), ⟨line.quoteEnd offset, ';' :: rest⟩⟩ :=
    piece?_string isSpace_blank legible.quiet
  simp [importStatement?, behindKeyword, star, importClause?_of_legible legible, link, source, isModifier,
    finishImport_semicolon, Piece.isText, Piece.isWord, Piece.isString, Piece.isMark, Piece.reversed,
    Tree.ofReversed, tree]

variable {dialect : Dialect} {progress : Progress} {fuel : Nat}

theorem word_import (legible : line.Legible) (ready : progress.before = .statement)
    (here : progress.cursor = ⟨offset, line.write rest⟩) :
    word (fuel + 1) ⟨dialect, []⟩ progress =
      progress.push (line.tree offset) .statement ⟨line.quoteEnd offset + 1, rest⟩ := by
  have read : identifierRest 0 (line.write rest) =
      (['i', 'm', 'p', 'o', 'r', 't'], line.behindKeyword rest) := by
    have parts : ∀ part ∈ ['i', 'm', 'p', 'o', 'r', 't'], isIdentifierPart part = true :=
      List.forall_iff_forall_mem.mp (by decide)
    have append := identifierRest_append parts (line.behindKeyword rest)
    rw [behindKeyword, identifierRest_blank, List.append_nil] at append
    exact append
  have behind : (Cursor.mk offset (line.write rest)).behind
      (['i', 'm', 'p', 'o', 'r', 't'], line.behindKeyword rest) = ⟨offset + 6, line.behindKeyword rest⟩ := rfl
  have keyword : Before.ofWord? (String.ofList ['i', 'm', 'p', 'o', 'r', 't']) = some .operand := by decide
  unfold word
  simp only [here, read, behind, ready, keyword]
  rw [if_neg (by decide), if_pos (by decide)]
  simp only [importStatement?_of_legible legible]

/-- An import at the top of a program is one statement of it. -/
theorem row_import {spaces : List Char} (space : ∀ character ∈ spaces, isSpace character = true)
    (legible : line.Legible) (ready : progress.before = .statement)
    (here : progress.cursor = ⟨offset, spaces ++ line.write rest⟩) :
    row (fuel + 3) ⟨dialect, []⟩ progress = row (fuel + 2) ⟨dialect, []⟩
      (progress.push (line.tree (offset + byteLength spaces)) .statement
        ⟨line.quoteEnd (offset + byteLength spaces) + 1, rest⟩) := by
  have skipped : progress.cursor.skipSpace = ⟨offset + byteLength spaces, line.write rest⟩ := by
    rw [here]
    exact Cursor.skipSpace_spaces offset space (by decide) _
  have token : token (fuel + 2) ⟨dialect, []⟩
      { progress with cursor := ⟨offset + byteLength spaces, line.write rest⟩ } =
      progress.push (line.tree (offset + byteLength spaces)) .statement
        ⟨line.quoteEnd (offset + byteLength spaces) + 1, rest⟩ := by
    rw [token]
    dsimp only
    exact (if_pos rfl).trans (word_import legible ready rfl)
  rw [row, skipped]
  simp only [Cursor.comment?, write, List.contains_nil, Bool.false_eq_true, if_false] at token ⊢
  rw [token]
  rfl

end NamespaceImport

/-! ## Reading on -/

section

variable {setting : Setting} {progress : Progress} {fuel : Nat} {tree : Tree}

theorem mem_push {before : Before} {cursor : Cursor} {other : Tree} (member : tree ∈ progress.reversed) :
    tree ∈ (progress.push other before cursor).reversed :=
  List.mem_cons_of_mem _ member

theorem mem_ite {condition : Prop} [Decidable condition] {other : Progress}
    (first : tree ∈ progress.reversed) (second : tree ∈ other.reversed) :
    tree ∈ (if condition then progress else other).reversed := by
  split
  · exact first
  · exact second

theorem mem_word (member : tree ∈ progress.reversed) : tree ∈ (word fuel setting progress).reversed := by
  cases fuel with
  | zero =>
      rw [word]
      exact mem_push member
  | succ fuel =>
      unfold word
      dsimp only
      repeat' split
      all_goals exact List.mem_cons_of_mem _ member

theorem mem_token (member : tree ∈ progress.reversed) : tree ∈ (token fuel setting progress).reversed := by
  cases fuel with
  | zero =>
      rw [token]
      exact mem_push member
  | succ fuel =>
      have pushed := fun (other : Tree) => List.mem_cons_of_mem other member
      unfold token
      dsimp only
      split
      · exact member
      · refine mem_ite (mem_word member) (mem_ite (pushed _) (mem_ite (pushed _) (mem_ite (pushed _)
          (mem_ite (pushed _) (mem_ite (pushed _) (mem_ite (pushed _) (mem_ite (pushed _) (mem_ite ?_
            (mem_ite (pushed _) (mem_ite ?_ (pushed _)))))))))))
        · split <;> exact pushed _
        · split <;> exact pushed _

theorem mem_row (member : tree ∈ progress.reversed) : tree ∈ (row fuel setting progress).reversed := by
  induction fuel generalizing progress with
  | zero => exact member
  | succ fuel ih =>
      unfold row
      dsimp only
      repeat' split
      · exact ih (mem_push member)
      · exact member
      · exact member
      · exact ih (mem_token member)

end

namespace NamespaceImport

variable {line : NamespaceImport} {lines : List NamespaceImport} {rest : List Char} {offset : Nat}

theorem writeAll_cons (line : NamespaceImport) (lines : List NamespaceImport) (rest : List Char) :
    ∃ behind, writeAll rest (line :: lines) = line.write behind ∧
      (lines ≠ [] → behind = '\n' :: writeAll rest lines) := by
  cases lines with
  | nil => exact ⟨rest, rfl, fun present => absurd rfl present⟩
  | cons next lines => exact ⟨_, rfl, fun _ => rfl⟩

theorem length_lt_writeAll (present : lines ≠ []) (rest : List Char) :
    lines.length < (writeAll rest lines).length := by
  induction lines with
  | nil => exact absurd rfl present
  | cons line lines ih =>
      have two : ∀ behind, behind.length + 2 ≤ (line.write behind).length := fun behind => by
        simp only [write, behindKeyword, List.length_cons, List.length_append]
        omega
      cases lines with
      | nil =>
          have := two rest
          simp only [writeAll, List.length_singleton]
          omega
      | cons next lines =>
          have := two ('\n' :: writeAll rest (next :: lines))
          have := ih (List.cons_ne_nil _ _)
          simp only [writeAll, List.length_cons] at *
          omega

/-- Imports on lines of their own are all among the statements that are read. -/
theorem mem_row_of_writeAll {dialect : Dialect} {progress : Progress} {fuel : Nat} {spaces : List Char}
    (space : ∀ character ∈ spaces, isSpace character = true) (legible : ∀ line ∈ lines, line.Legible)
    (ready : progress.before = .statement) (here : progress.cursor = ⟨offset, spaces ++ writeAll rest lines⟩)
    (enough : lines.length + 2 ≤ fuel) (member : line ∈ lines) :
    ∃ front back, spaces ++ writeAll rest lines = front ++ line.write back ∧
      line.tree (offset + byteLength front) ∈ (row fuel ⟨dialect, []⟩ progress).reversed := by
  induction lines generalizing progress offset spaces fuel with
  | nil => cases member
  | cons next lines ih =>
      obtain ⟨here_, others⟩ := List.forall_mem_cons.mp legible
      rw [List.length_cons] at enough
      obtain ⟨fuel, rfl⟩ : ∃ less, fuel = less + 3 := ⟨fuel - 3, by omega⟩
      obtain ⟨behind, text, goesOn⟩ := writeAll_cons next lines rest
      rw [text] at here ⊢
      rw [row_import space here_ ready here]
      rcases List.mem_cons.mp member with rfl | inside
      · exact ⟨spaces, behind, rfl, mem_row List.mem_cons_self⟩
      · have lineEnd := goesOn (List.ne_nil_of_mem inside)
        obtain ⟨front, back, whole, found⟩ := @ih (next.quoteEnd (offset + byteLength spaces) + 1)
          (progress.push (next.tree (offset + byteLength spaces)) .statement
            ⟨next.quoteEnd (offset + byteLength spaces) + 1, behind⟩)
          (fuel + 2) ['\n'] (List.forall_iff_forall_mem.mp (by decide)) others rfl (by rw [lineEnd]; rfl) (by omega) inside
        rw [List.singleton_append, ← lineEnd] at whole
        have place : next.quoteEnd (offset + byteLength spaces) + 1 + byteLength front =
            offset + byteLength (spaces ++ (next.write [] ++ front)) := by
          rw [← byteLength_write, Text.byteLength_append, Text.byteLength_append]
          omega
        rw [place] at found
        refine ⟨_, back, ?_, found⟩
        rw [write_eq_append, whole, List.append_assoc, List.append_assoc]

end NamespaceImport

end TypedLiterals.Syntax
