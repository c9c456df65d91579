import TypedLiterals.Proofs.Syntax.Pieces

/-!
How the parts of a tree lie in a text.

The parts of a tree that was read stand one behind the other inside its span, so of two parts either one
belongs to the other or they are apart.
-/

namespace TypedLiterals.Syntax

namespace Tree

mutual

/-- Whether the parts of a tree are laid out within its span. An identifier has no parts. -/
def Laid : Tree → Prop
  | node kind _ span children =>
    (kind = .identifier → children = []) ∧ LaidOut span.start span.stop children

/-- Whether trees stand one behind the other between two offsets, and their parts within them. -/
def LaidOut (start stop : Nat) : List Tree → Prop
  | [] => start ≤ stop
  | tree :: rest => start ≤ tree.span.start ∧ tree.Laid ∧ LaidOut tree.span.stop stop rest

end

variable {tree first second : Tree} {trees others : List Tree} {start middle stop : Nat} {kind : Kind}

mutual

theorem Laid.le : ∀ {tree : Tree}, tree.Laid → tree.span.start ≤ tree.span.stop
  | node _ _ _ _, laid => LaidOut.le laid.2

theorem LaidOut.le : ∀ {start stop : Nat} {trees : List Tree}, LaidOut start stop trees → start ≤ stop
  | _, _, [], laid => laid
  | _, _, _ :: _, laid => Nat.le_trans laid.1 (Nat.le_trans laid.2.1.le laid.2.2.le)

end

theorem LaidOut.widen {earlier later : Nat} (laid : LaidOut start stop trees) (before : earlier ≤ start)
    (behind : stop ≤ later) : LaidOut earlier later trees := by
  induction trees generalizing earlier start with
  | nil => exact Nat.le_trans before (Nat.le_trans laid behind)
  | cons tree rest ih => exact ⟨Nat.le_trans before laid.1, laid.2.1, ih laid.2.2 (Nat.le_refl _)⟩

theorem LaidOut.append (front : LaidOut start middle trees) (back : LaidOut middle stop others) :
    LaidOut start stop (trees ++ others) := by
  induction trees generalizing start with
  | nil => exact back.widen front (Nat.le_refl _)
  | cons tree rest ih => exact ⟨front.1, front.2.1, ih front.2.2⟩

theorem LaidOut.split (laid : LaidOut start stop (trees ++ others)) :
    ∃ middle, LaidOut start middle trees ∧ LaidOut middle stop others := by
  induction trees generalizing start with
  | nil => exact ⟨start, Nat.le_refl _, laid⟩
  | cons tree rest ih =>
      obtain ⟨middle, front, back⟩ := ih laid.2.2
      exact ⟨middle, ⟨laid.1, laid.2.1, front⟩, back⟩

/-- Trees can be read on behind a row that is kept last first. -/
theorem LaidOut.push (front : LaidOut start middle trees.reverse) (back : LaidOut middle stop others.reverse) :
    LaidOut start stop (others ++ trees).reverse := by
  rw [List.reverse_append]
  exact front.append back

theorem LaidOut.push_one (front : LaidOut start middle trees.reverse) (back : LaidOut middle stop [tree]) :
    LaidOut start stop (tree :: trees).reverse := by
  rw [List.reverse_cons]
  exact front.append back

theorem laidOut_nil (offset : Nat) : LaidOut offset offset [].reverse :=
  Nat.le_refl offset

theorem laidOut_singleton (before : start ≤ tree.span.start) (laid : tree.Laid) (behind : tree.span.stop ≤ stop) :
    LaidOut start stop [tree] :=
  ⟨before, laid, behind⟩

theorem laid_leaf {span : Span} (ordered : span.start ≤ span.stop) : (leaf kind span).Laid :=
  ⟨fun _ => rfl, ordered⟩

theorem laidOut_node (kind : Kind) (plain : kind ≠ .identifier) {role : Option Role} (before : start ≤ middle)
    (laid : LaidOut middle stop trees) : LaidOut start stop [node kind role ⟨start, stop⟩ trees] :=
  ⟨Nat.le_refl _, ⟨fun same => absurd same plain, laid.widen before (Nat.le_refl _)⟩, Nat.le_refl _⟩

theorem LaidOut.to_last (laid : LaidOut start stop trees) (last : trees.getLast? = some tree) :
    LaidOut start tree.span.stop trees ∧ tree.span.stop ≤ stop := by
  induction trees generalizing start with
  | nil => cases last
  | cons first rest ih =>
      cases rest with
      | nil =>
          cases last
          exact ⟨⟨laid.1, laid.2.1, Nat.le_refl _⟩, laid.2.2⟩
      | cons next rest =>
          obtain ⟨inner, behind⟩ := ih laid.2.2 last
          exact ⟨⟨laid.1, laid.2.1, inner⟩, behind⟩

theorem laidOut_ofReversed (plain : kind ≠ .identifier) (laid : LaidOut start stop trees.reverse)
    (present : trees ≠ []) : LaidOut start stop [ofReversed kind trees] := by
  obtain ⟨last, head⟩ := Option.ne_none_iff_exists'.mp (mt List.head?_eq_none_iff.mp present)
  obtain ⟨first, rest, order⟩ := List.exists_cons_of_ne_nil (List.reverse_ne_nil_iff.mpr present)
  obtain ⟨inner, ends⟩ := laid.to_last (by rw [List.getLast?_reverse, head])
  have whole : ofReversed kind trees = node kind none ⟨first.span.start, last.span.stop⟩ trees.reverse := by
    simp only [ofReversed, order, head, List.head?_cons, Option.map_some, Option.getD_some]
  rw [order] at laid inner
  rw [whole, order]
  exact ⟨laid.1, ⟨fun same => absurd same plain, Nat.le_refl _, inner.2⟩, ends⟩

end Tree

open TypedLiterals.Syntax.Tree (Laid LaidOut laidOut_nil laidOut_singleton laid_leaf laidOut_node laidOut_ofReversed)

/-! ## Cursors -/

variable {cursor after : Cursor}

theorem Cursor.le_behind (cursor : Cursor) (parts : List Char × List Char) :
    cursor.offset ≤ (cursor.behind parts).offset :=
  Nat.le_add_right _ _

theorem Cursor.le_skip (count : Nat) (cursor : Cursor) : cursor.offset ≤ (cursor.skip count).offset :=
  cursor.le_behind _

theorem Cursor.add_le_skip {count : Nat} (enough : count ≤ cursor.rest.length) :
    cursor.offset + count ≤ (cursor.skip count).offset := by
  have taken := Text.length_le_byteLength (cursor.rest.take count)
  rw [List.length_take_of_le enough] at taken
  rw [Cursor.skip, Cursor.behind_eq, List.splitAt_eq]
  exact Nat.add_le_add_left taken _

theorem Cursor.le_skipSpace (cursor : Cursor) : cursor.offset ≤ cursor.skipSpace.offset :=
  cursor.le_behind _

theorem Cursor.le_comment? (found : cursor.comment? = some after) : cursor.offset ≤ after.offset := by
  unfold Cursor.comment? at found
  split at found
  · cases found
    exact Nat.le_trans (cursor.le_skip 2) ((cursor.skip 2).le_behind _)
  · cases found
    exact Nat.le_trans (cursor.le_skip 2) ((cursor.skip 2).le_behind _)
  · cases found

theorem laidOut_trivia (count : Nat) (cursor : Cursor) :
    LaidOut cursor.offset (trivia count cursor).2.offset (trivia count cursor).1 := by
  induction count generalizing cursor with
  | zero => exact Nat.le_refl _
  | succ count ih =>
      rw [trivia]
      split
      · exact cursor.le_skipSpace
      · next after found => exact ⟨cursor.le_skipSpace, laid_leaf (Cursor.le_comment? found), ih after⟩

theorem Cursor.laidOut_trivia (cursor : Cursor) :
    LaidOut cursor.offset cursor.trivia.2.offset cursor.trivia.1 :=
  Syntax.laidOut_trivia _ cursor

theorem Cursor.le_trivia (cursor : Cursor) : cursor.offset ≤ cursor.trivia.2.offset :=
  cursor.laidOut_trivia.le

/-- Whether a tree that was read stands between an offset and the cursor behind it. -/
def Lies (start : Nat) (read : Tree × Cursor) : Prop :=
  LaidOut start read.2.offset [read.1]

/-! ## Import statements -/

/-- Whether a piece and the comments in front of it stand behind an offset. -/
structure Piece.Behind (start : Nat) (piece : Piece) : Prop where
  comments : LaidOut start piece.tree.span.start piece.comments
  tree : LaidOut piece.tree.span.start piece.after.offset [piece.tree]

namespace Piece

variable {piece first : Piece} {tree : Tree} {start stop : Nat} {kind : Kind}

theorem behind_of_piece? (found : cursor.piece? = some piece) : piece.Behind cursor.offset := by
  obtain ⟨kind, taken, rest, _, _, rfl⟩ := piece?_eq_some found
  exact ⟨cursor.laidOut_trivia,
    laidOut_singleton (Nat.le_refl _) (laid_leaf (cursor.trivia.2.le_behind (taken, rest))) (Nat.le_refl _)⟩

theorem Behind.ordered (behind : piece.Behind start) : piece.tree.span.start ≤ piece.tree.span.stop :=
  behind.tree.2.1.le

theorem Behind.reversed (behind : piece.Behind start) (laid : LaidOut piece.tree.span.start stop [tree]) :
    LaidOut start stop (piece.reversed tree).reverse := by
  rw [Piece.reversed, List.reverse_cons, List.reverse_reverse]
  exact behind.comments.append laid

theorem Behind.keyword (behind : piece.Behind start) :
    LaidOut piece.tree.span.start piece.after.offset [.leaf .keyword piece.tree.span] :=
  laidOut_singleton (Nat.le_refl _) (laid_leaf behind.ordered) behind.tree.2.2

theorem Behind.withRole (behind : piece.Behind start) (role : Role) :
    LaidOut piece.tree.span.start piece.after.offset [piece.tree.withRole role] := by
  obtain ⟨before, laid, ends⟩ := behind.tree
  cases same : piece.tree
  rw [same] at before laid ends
  exact ⟨before, laid, ends⟩

theorem Names.laidOut {front : List Tree} {after : Cursor} (names : first.Names front after)
    (behind : first.Behind start) : LaidOut first.tree.span.start after.offset front.reverse := by
  cases names with
  | plain => exact behind.withRole .name
  | modified next =>
      have named := behind_of_piece? next
      exact Tree.LaidOut.push (show LaidOut _ _ [Tree.leaf .keyword first.tree.span].reverse from behind.keyword)
        (named.reversed (named.withRole .name))

theorem Names.ne_nil {front : List Tree} {after : Cursor} (names : first.Names front after) : front ≠ [] := by
  cases names with
  | plain => exact List.cons_ne_nil _ _
  | modified _ => exact List.cons_ne_nil _ _

theorem lies_specifier (behind : first.Behind start) : Lies first.tree.span.start (specifier first) := by
  have made := first.specifies_specifier
  generalize specifier first = read at made ⊢
  cases made with
  | named names => exact laidOut_ofReversed nofun (names.laidOut behind) names.ne_nil
  | renamed names next last =>
      have linked := behind_of_piece? next
      have bound := behind_of_piece? last
      rw [Lies, List.append_assoc]
      exact laidOut_ofReversed nofun
        (((names.laidOut behind).push (linked.reversed linked.keyword)).push
          (bound.reversed (bound.withRole .localName)))
        (by simp [Piece.reversed])

end Piece

open Piece (behind_of_piece? lies_specifier)

variable {first : Piece} {parts front : List Tree} {start stop : Nat} {read : List Tree × Cursor}
  {tree keyword : Tree}

theorem laidOut_specifiers {count : Nat} (laid : LaidOut start cursor.offset parts.reverse)
    (found : specifiers count cursor parts = some read) :
    LaidOut start read.2.offset read.1.reverse ∧ read.1 ≠ [] := by
  induction count generalizing cursor parts with
  | zero => cases found
  | succ count ih =>
      rw [specifiers] at found
      obtain ⟨piece, next, found⟩ := Option.bind_eq_some_iff.mp found
      have behind := behind_of_piece? next
      split at found
      · cases found
        exact ⟨laid.push (behind.reversed behind.tree), by simp [Piece.reversed]⟩
      · split at found
        · exact ih (laid.push (behind.reversed behind.tree)) found
        · split at found
          · exact ih (laid.push (behind.reversed (lies_specifier behind))) found
          · cases found

theorem lies_importGroup? {group : Tree × Cursor} (behind : first.Behind start)
    (found : importGroup? first = some group) : Lies first.tree.span.start group := by
  have mark : LaidOut first.tree.span.start first.after.offset [first.tree].reverse := behind.tree
  cases groups_of_importGroup? found with
  | names listed =>
      obtain ⟨laid, present⟩ := laidOut_specifiers mark listed
      exact laidOut_ofReversed nofun laid present
  | space next last =>
      have linked := behind_of_piece? next
      have named := behind_of_piece? last
      rw [Lies, List.append_assoc]
      exact laidOut_ofReversed nofun
        ((mark.push (linked.reversed linked.keyword)).push (named.reversed named.tree)) (by simp [Piece.reversed])

theorem lies_importClause? {clause : Tree × Cursor} (behind : first.Behind start)
    (found : importClause? first = some clause) : Lies first.tree.span.start clause := by
  have alone : LaidOut first.tree.span.start first.after.offset [first.tree].reverse := behind.tree
  cases binds_of_importClause? found with
  | name => exact laidOut_ofReversed nofun alone (List.cons_ne_nil _ _)
  | both next opens listed =>
      have separated := behind_of_piece? next
      have marked := behind_of_piece? opens
      rw [Lies, List.append_assoc]
      exact laidOut_ofReversed nofun
        ((alone.push (separated.reversed separated.tree)).push
          (marked.reversed (lies_importGroup? marked listed))) (by simp [Piece.reversed])
  | @group group listed =>
      exact laidOut_ofReversed nofun (show LaidOut _ _ [group.1].reverse from lies_importGroup? behind listed)
        (List.cons_ne_nil _ _)

theorem laidOut_semicolon (cursor : Cursor) :
    LaidOut cursor.offset (semicolon cursor).2.offset (semicolon cursor).1.reverse := by
  rcases semicolon_cases cursor with same | ⟨piece, found, same⟩
  · rw [same]
    exact Nat.le_refl _
  · have behind := behind_of_piece? found
    rw [same]
    exact behind.reversed behind.tree

theorem laidOut_attributeParts {count : Nat} (laid : LaidOut start cursor.offset parts.reverse)
    (found : attributeParts count cursor parts = some read) :
    LaidOut start read.2.offset read.1.reverse ∧ read.1 ≠ [] := by
  induction count generalizing cursor parts with
  | zero => cases found
  | succ count ih =>
      rw [attributeParts] at found
      obtain ⟨piece, next, found⟩ := Option.bind_eq_some_iff.mp found
      have behind := behind_of_piece? next
      split at found
      · cases found
        exact ⟨laid.push (behind.reversed behind.tree), by simp [Piece.reversed]⟩
      · exact ih (laid.push (behind.reversed behind.tree)) found

theorem laidOut_attributes? (found : attributes? cursor = some read) :
    LaidOut cursor.offset read.2.offset read.1.reverse := by
  obtain ⟨word, brace, count, inner, next, opens, listed, rfl⟩ := attributes?_eq_some found
  have worded := behind_of_piece? next
  have braced := behind_of_piece? opens
  have mark : LaidOut brace.tree.span.start brace.after.offset [brace.tree].reverse := braced.tree
  obtain ⟨laid, present⟩ := laidOut_attributeParts mark listed
  have group : LaidOut brace.tree.span.start inner.2.offset [.ofReversed .braces inner.1] :=
    laidOut_ofReversed nofun laid present
  exact Tree.LaidOut.push (worded.reversed worded.keyword) (braced.reversed group)

theorem lies_finishImport (laid : LaidOut start cursor.offset parts.reverse) (present : parts ≠ []) :
    Lies start (finishImport parts cursor) := by
  have attributed : LaidOut cursor.offset ((attributes? cursor).getD ([], cursor)).2.offset
      ((attributes? cursor).getD ([], cursor)).1.reverse := by
    cases found : attributes? cursor with
    | none => exact Nat.le_refl _
    | some read => exact laidOut_attributes? found
  rw [Lies, finishImport, List.append_assoc]
  exact laidOut_ofReversed nofun ((laid.push attributed).push (laidOut_semicolon _)) (by simp [present])

theorem lies_importStatement? {statement : Tree × Cursor} (opens : LaidOut start cursor.offset [keyword])
    (found : importStatement? keyword cursor = some statement) : Lies start statement := by
  have alone : LaidOut start cursor.offset [keyword].reverse := opens
  cases imports_of_importStatement? found with
  | bare next =>
      have behind := behind_of_piece? next
      exact lies_finishImport (alone.push (behind.reversed (behind.withRole .source))) (by simp [Piece.reversed])
  | @clause first begins link source clause front next opens read joins last =>
      have behind := behind_of_piece? next
      obtain ⟨stop, laid, clauseBehind⟩ : ∃ stop, LaidOut start stop front.reverse ∧ begins.Behind stop := by
        cases opens with
        | plain => exact ⟨_, alone, behind⟩
        | modified follows => exact ⟨_, alone.push (behind.reversed behind.keyword), behind_of_piece? follows⟩
      have linked := behind_of_piece? joins
      have named := behind_of_piece? last
      rw [List.append_assoc, List.append_assoc]
      exact lies_finishImport (((laid.push (clauseBehind.reversed (lies_importClause? clauseBehind read))).push
        (linked.reversed linked.keyword)).push (named.reversed (named.withRole .source)))
        (by simp [Piece.reversed])

/-! ## Rows -/

variable {setting : Setting} {progress : Progress} {fuel : Nat} {closer : Char} {before : Before} {callee : Tree}
  {result : Tree × Cursor} {trees : List Tree}

/-- Whether the trees that were read stand behind an offset, up to the cursor. -/
def Progress.Laid (start : Nat) (progress : Progress) : Prop :=
  LaidOut start progress.cursor.offset progress.reversed.reverse

theorem Progress.Laid.push {next : Before} (laid : progress.Laid start)
    (read : LaidOut progress.cursor.offset after.offset [tree]) : (progress.push tree next after).Laid start :=
  Tree.LaidOut.push_one laid read

theorem Progress.Laid.takeTo {kind : Kind} {next : Before} (laid : progress.Laid start)
    (behind : progress.cursor.offset ≤ after.offset) : (progress.takeTo kind after next).Laid start :=
  laid.push (laidOut_singleton (Nat.le_refl _) (laid_leaf behind) (Nat.le_refl _))

theorem Progress.Laid.take {kind : Kind} {next : Before} (count : Nat) (laid : progress.Laid start) :
    (progress.take kind count next).Laid start :=
  laid.takeTo (progress.cursor.le_skip count)

theorem Cursor.le_close (cursor : Cursor) (closer : Char) : cursor.offset ≤ (cursor.close closer).offset := by
  unfold Cursor.close
  split
  · exact cursor.le_skip 1
  · exact Nat.le_refl _

theorem laidOut_argumentOf (laid : LaidOut start stop trees) : LaidOut start stop (argumentOf trees) := by
  unfold argumentOf
  split
  · exact laid
  · next many =>
      refine laidOut_ofReversed nofun (by rwa [List.reverse_reverse]) fun none => many ?_
      rw [List.reverse_eq_nil_iff.mp none]
      exact Nat.zero_le 1

theorem laidOut_splitArguments {pending : List Tree} (laid : LaidOut start stop (pending.reverse ++ trees)) :
    LaidOut start stop (splitArguments pending trees) := by
  induction trees generalizing pending start with
  | nil =>
      rw [List.append_nil] at laid
      exact laidOut_argumentOf laid
  | cons tree rest ih =>
      rw [splitArguments]
      split
      · obtain ⟨middle, front, separator, inside, behind⟩ := laid.split
        exact (laidOut_argumentOf front).append ⟨separator, inside, ih behind⟩
      · exact ih (by simpa using laid)

/-- What the readers of a depth make is laid out. -/
structure Reads (fuel : Nat) : Prop where
  row : ∀ {setting progress start}, Progress.Laid start progress → (row fuel setting progress).Laid start
  token : ∀ {setting progress start}, Progress.Laid start progress → (token fuel setting progress).Laid start
  word : ∀ {setting progress start}, Progress.Laid start progress → (word fuel setting progress).Laid start
  group : ∀ {setting closer before cursor}, LaidOut cursor.offset
    (group fuel setting closer before cursor).2.offset (group fuel setting closer before cursor).1
  call : ∀ {setting callee cursor start result}, LaidOut start cursor.offset [callee] →
    call fuel setting callee cursor = some result → Lies start result
  typedCall : ∀ {setting front cursor start result}, LaidOut start cursor.offset front.reverse → front ≠ [] →
    typedCall fuel setting front cursor = some result → Lies start result
  applied : ∀ {setting front cursor start}, LaidOut start cursor.offset front.reverse → front ≠ [] →
    Lies start (applied fuel setting front cursor)
  templateParts : ∀ {setting cursor parts start}, LaidOut start cursor.offset parts.reverse →
    LaidOut start (templateParts fuel setting cursor parts).2.offset
      (templateParts fuel setting cursor parts).1.reverse
  typeParts : ∀ {setting before cursor parts start read}, LaidOut start cursor.offset parts.reverse →
    typeParts fuel setting before cursor parts = some read → LaidOut start read.2.offset read.1.reverse
  element : ∀ {setting cursor result}, element fuel setting cursor = some result → Lies cursor.offset result
  attributeRow : ∀ {setting cursor parts start read}, LaidOut start cursor.offset parts.reverse →
    attributeRow fuel setting cursor parts = some read → LaidOut start read.2.1.offset read.1.reverse
  elementContent : ∀ {setting cursor parts start read}, LaidOut start cursor.offset parts.reverse →
    elementContent fuel setting cursor parts = some read → LaidOut start read.2.offset read.1.reverse

namespace Reads

variable (reads : Reads fuel)
include reads

theorem row_succ (laid : progress.Laid start) : (Syntax.row (fuel + 1) setting progress).Laid start := by
  have skipped : LaidOut start progress.cursor.skipSpace.offset progress.reversed.reverse :=
    laid.widen (Nat.le_refl _) progress.cursor.le_skipSpace
  rw [Syntax.row]
  split
  · next after found =>
    exact reads.row (skipped.push_one
      (laidOut_singleton (Nat.le_refl _) (laid_leaf (Cursor.le_comment? found)) (Nat.le_refl _)))
  · split
    · exact skipped
    · split
      · exact skipped
      · exact reads.row (reads.token skipped)

theorem group_succ : LaidOut cursor.offset (Syntax.group (fuel + 1) setting closer before cursor).2.offset
    (Syntax.group (fuel + 1) setting closer before cursor).1 := by
  have inner : (Syntax.row fuel (setting.inside closer) (.start cursor before)).Laid cursor.offset :=
    reads.row (laidOut_nil _)
  rw [Syntax.group]
  exact Tree.LaidOut.widen inner (Nat.le_refl _) (Cursor.le_close _ _)

theorem token_succ (laid : progress.Laid start) : (Syntax.token (fuel + 1) setting progress).Laid start := by
  have node : ∀ {kind : Kind} {inner : List Tree} {after : Cursor} {stop : Nat} {next : Before},
      kind ≠ .identifier → progress.cursor.offset ≤ stop → LaidOut stop after.offset inner →
      (progress.push (.node kind none ⟨progress.cursor.offset, after.offset⟩ inner) next after).Laid start :=
    fun plain behind inside => laid.push (laidOut_node _ plain behind inside)
  have opened := progress.cursor.le_skip 1
  have behind : ∀ parts, progress.cursor.offset ≤ ((progress.cursor.skip 1).behind parts).offset :=
    fun parts => Nat.le_trans opened (Cursor.le_behind _ parts)
  have cases : ∀ {test : Prop} [Decidable test] {yes no : Progress}, yes.Laid start → no.Laid start →
      (if test then yes else no).Laid start := by
    intro test _ yes no yesLaid noLaid
    split
    · exact yesLaid
    · exact noLaid
  cases text : progress.cursor.rest with
  | nil =>
      rw [Syntax.token, text]
      exact laid
  | cons character rest =>
      rw [Syntax.token, text]
      dsimp only
      refine cases (reads.word laid) (cases (laid.takeTo (behind _)) (cases
        (node nofun opened (reads.templateParts (laidOut_nil _))) (cases (laid.take _) (cases
        (node nofun opened reads.group) (cases (node nofun opened reads.group) (cases ?_
        (cases (laid.takeTo (behind _)) (cases ?_ (cases (laid.takeTo (Cursor.le_behind _ _))
        (cases ?_ (@Progress.Laid.take _ _ _ .operator _ laid)))))))))))
      · exact Tree.LaidOut.push_one laid (laidOut_node .braces nofun opened reads.group)
      · split
        · exact laid.takeTo (behind _)
        · exact laid.take _
      · split
        · next found => exact laid.push (reads.element found)
        · exact laid.take _

theorem word_succ (laid : progress.Laid start) : (Syntax.word (fuel + 1) setting progress).Laid start := by
  have behind : ∀ parts, progress.cursor.offset ≤ (progress.cursor.behind parts).offset :=
    progress.cursor.le_behind
  have leaf : ∀ (kind : Kind) (parts : List Char × List Char), LaidOut progress.cursor.offset
      (progress.cursor.behind parts).offset
      [.leaf kind ⟨progress.cursor.offset, (progress.cursor.behind parts).offset⟩] :=
    fun kind parts => laidOut_singleton (Nat.le_refl _) (laid_leaf (behind parts)) (Nat.le_refl _)
  rw [Syntax.word]
  dsimp only
  split
  · exact laid.takeTo (behind _)
  · split
    · next effect _ =>
      split
      · next found =>
        split at found
        · exact laid.push (lies_importStatement? (leaf .keyword _) found)
        · cases found
      · exact @Progress.Laid.push _ _ _ _ effect laid (leaf .keyword _)
    · split
      · exact laid.takeTo (behind _)
      · split
        · exact laid.takeTo (behind _)
        · split
          · exact laid.takeTo (behind _)
          · split
            · next found => exact laid.push (reads.call (leaf .identifier _) found)
            · exact laid.takeTo (behind _)

theorem applied_succ (laid : LaidOut start cursor.offset front.reverse) :
    Lies start (Syntax.applied (fuel + 1) setting front cursor) := by
  rw [Syntax.applied]
  have inner := @reads.group setting ')' .operator (cursor.skip 1)
  have inside := laidOut_splitArguments (show LaidOut _ _ ([].reverse ++ _) from inner)
  exact laidOut_ofReversed nofun (laid.push_one (laidOut_node .arguments nofun (cursor.le_skip 1) inside))
    (List.cons_ne_nil _ _)

theorem typedCall_succ (laid : LaidOut start cursor.offset front.reverse)
    (found : Syntax.typedCall (fuel + 1) setting front cursor = some result) : Lies start result := by
  rw [Syntax.typedCall] at found
  split at found
  · cases found
  · next parts after listed =>
    have inner := reads.typeParts (laidOut_nil _) listed
    have types : LaidOut cursor.offset after.offset
        [Tree.node .typeArguments none ⟨cursor.offset, after.offset⟩ parts.reverse] :=
      laidOut_node .typeArguments nofun (cursor.le_skip 1) inner
    dsimp only at found
    split at found
    · cases found
      refine reads.applied ?_ (by simp)
      exact (laid.push_one types).push (by simpa using after.laidOut_trivia)
    · cases found

theorem call_succ (laid : LaidOut start cursor.offset [callee])
    (found : Syntax.call (fuel + 1) setting callee cursor = some result) : Lies start result := by
  have behind : LaidOut start cursor.trivia.2.offset (cursor.trivia.1.reverse ++ [callee]).reverse :=
    Tree.LaidOut.push (show LaidOut _ _ [callee].reverse from laid) (by simpa using cursor.laidOut_trivia)
  rw [Syntax.call] at found
  dsimp only at found
  split at found
  · cases found
    exact reads.applied behind (by simp)
  · next rest text =>
    split at found
    · cases found
    · have jump : LaidOut cursor.trivia.2.offset (cursor.trivia.2.skip 2).offset
          [.leaf .punctuation ⟨cursor.trivia.2.offset, cursor.trivia.2.offset + 2⟩] :=
        laidOut_singleton (Nat.le_refl _) (laid_leaf (Nat.le_add_right _ _))
          (Cursor.add_le_skip (by rw [text]; simp))
      have chained := (behind.push_one jump).push
        (show LaidOut _ _ (cursor.trivia.2.skip 2).trivia.1.reverse.reverse by
          simpa using (cursor.trivia.2.skip 2).laidOut_trivia)
      split at found
      · cases found
        exact reads.applied chained (by simp)
      · split at found
        · exact reads.typedCall chained (by simp) found
        · cases found
      · cases found
  · split at found
    · exact reads.typedCall behind (by simp) found
    · cases found
  · cases found

theorem templateParts_succ (laid : LaidOut start cursor.offset parts.reverse) :
    LaidOut start (Syntax.templateParts (fuel + 1) setting cursor parts).2.offset
      (Syntax.templateParts (fuel + 1) setting cursor parts).1.reverse := by
  have text := laid.widen (Nat.le_refl _) (cursor.le_behind (templateText cursor.rest))
  rw [Syntax.templateParts]
  dsimp only
  split
  · exact reads.templateParts (text.push_one (laidOut_node .substitution nofun (Cursor.le_skip 2 _) reads.group))
  · exact text
  · exact text.widen (Nat.le_refl _) (Cursor.le_skip 1 _)

theorem typeParts_succ (laid : LaidOut start cursor.offset parts.reverse)
    (found : Syntax.typeParts (fuel + 1) setting before cursor parts = some read) :
    LaidOut start read.2.offset read.1.reverse := by
  have behind : LaidOut start cursor.trivia.2.offset (cursor.trivia.1.reverse ++ parts).reverse :=
    laid.push (by simpa using cursor.laidOut_trivia)
  rw [Syntax.typeParts] at found
  dsimp only at found
  generalize cursor.trivia.2 = here at behind found
  generalize cursor.trivia.1.reverse ++ parts = front at behind found
  have mark : ∀ (kind : Kind) (count : Nat), count ≤ here.rest.length →
      LaidOut here.offset (here.skip count).offset [.leaf kind ⟨here.offset, here.offset + count⟩] :=
    fun kind count enough => laidOut_singleton (Nat.le_refl _) (laid_leaf (Nat.le_add_right _ _))
      (Cursor.add_le_skip enough)
  split at found
  · cases found
  · cases found
    exact behind.widen (Nat.le_refl _) (here.le_skip 1)
  · split at found
    · next inner after listed =>
      have inside := reads.typeParts (laidOut_nil _) listed
      exact reads.typeParts (behind.push_one (laidOut_node .typeArguments nofun (here.le_skip 1) inside)) found
    · cases found
  · next text => exact reads.typeParts (behind.push_one (mark _ 2 (by rw [text]; simp))) found
  · cases found
  · cases found
  · cases found
  · next character rest _ _ _ _ _ _ text =>
    have one : 1 ≤ here.rest.length := by rw [text]; simp
    split at found
    · refine reads.typeParts (behind.push_one ?_) found
      exact laidOut_singleton (Nat.le_refl _) (laid_leaf (here.le_behind _)) (Nat.le_refl _)
    · split at found
      · split at found
        · cases found
        · exact reads.typeParts (behind.push_one (mark _ 1 one)) found
      · split at found
        · cases found
        · split at found
          · exact reads.typeParts (behind.push_one (mark _ 1 one)) found
          · split at found
            · have next : (Syntax.token fuel setting (.start here .operator)).Laid here.offset :=
                reads.token (laidOut_nil _)
              exact reads.typeParts (behind.push next) found
            · cases found

theorem element_succ (found : Syntax.element (fuel + 1) setting cursor = some result) :
    Lies cursor.offset result := by
  have opened : cursor.offset ≤ (cursor.skip 1).trivia.2.offset :=
    Nat.le_trans (cursor.le_skip 1) (Cursor.le_trivia _)
  have finish : ∀ {parts : List Tree} {after : Cursor} {start : Nat}, cursor.offset ≤ start →
      LaidOut start after.offset parts.reverse →
      Lies cursor.offset (.node .element none ⟨cursor.offset, after.offset⟩ parts.reverse, after) :=
    fun before inside => laidOut_node .element nofun before inside
  rw [Syntax.element] at found
  dsimp only at found
  generalize (cursor.skip 1).trivia.2 = here at opened found
  split at found
  · obtain ⟨read, listed, rfl⟩ := Option.map_eq_some_iff.mp found
    exact finish (Nat.le_trans opened (here.le_skip 1)) (reads.elementContent (laidOut_nil _) listed)
  · split at found
    · -- The name may have type arguments, which are passed over.
      have named := Nat.le_trans opened (here.le_behind (here.rest.span isElementName))
      have typed : ∀ {read : List Tree × Cursor}, Syntax.typeParts fuel setting .operator
          ((here.behind (here.rest.span isElementName)).skip 1) [] = some read → cursor.offset ≤ read.2.offset :=
        fun listed => Nat.le_trans named
          (Nat.le_trans (Cursor.le_skip 1 _) (reads.typeParts (laidOut_nil _) listed).le)
      split at found
      · next listed =>
        cases found
        refine finish ?_ (reads.attributeRow (laidOut_nil _) listed)
        split
        · split
          · next types => exact typed types
          · exact named
        · exact named
      · next listed =>
        obtain ⟨read, content, rfl⟩ := Option.map_eq_some_iff.mp found
        refine finish ?_ (reads.elementContent (reads.attributeRow (laidOut_nil _) listed) content)
        split
        · split
          · next types => exact typed types
          · exact named
        · exact named
      · cases found
    · cases found
  · cases found

theorem attributeRow_succ {read : List Tree × Cursor × Bool} (laid : LaidOut start cursor.offset parts.reverse)
    (found : Syntax.attributeRow (fuel + 1) setting cursor parts = some read) :
    LaidOut start read.2.1.offset read.1.reverse := by
  have behind := laid.widen (Nat.le_refl _) cursor.le_trivia
  rw [Syntax.attributeRow] at found
  dsimp only at found
  generalize cursor.trivia.2 = here at behind found
  have value : here.offset ≤ (here.skip 1).trivia.2.offset := Nat.le_trans (here.le_skip 1) (Cursor.le_trivia _)
  split at found
  · cases found
    exact behind.widen (Nat.le_refl _) (here.le_skip 1)
  · split at found
    · cases found
      exact behind.widen (Nat.le_refl _) (Nat.le_trans value (Cursor.le_skip 1 _))
    · cases found
  · exact reads.attributeRow (behind.push_one (laidOut_node .braces nofun (here.le_skip 1) reads.group)) found
  · have valued := behind.widen (Nat.le_refl _) value
    split at found
    · split at found
      · next inner => exact reads.attributeRow (valued.push_one (reads.element inner)) found
      · cases found
    · exact reads.attributeRow valued found
    · split at found
      · refine reads.attributeRow (valued.widen (Nat.le_refl _) ?_) found
        exact Nat.le_trans (Cursor.le_skip 1 _) (Cursor.le_behind _ _)
      · cases found
    · cases found
  · split at found
    · exact reads.attributeRow (behind.widen (Nat.le_refl _) (here.le_behind _)) found
    · cases found
  · cases found

theorem elementContent_succ (laid : LaidOut start cursor.offset parts.reverse)
    (found : Syntax.elementContent (fuel + 1) setting cursor parts = some read) :
    LaidOut start read.2.offset read.1.reverse := by
  have behind := laid.widen (Nat.le_refl _) (cursor.le_behind (cursor.rest.span isElementText))
  rw [Syntax.elementContent] at found
  dsimp only at found
  generalize cursor.behind (cursor.rest.span isElementText) = here at behind found
  split at found
  · exact reads.elementContent (behind.push_one (laidOut_node .braces nofun (here.le_skip 1) reads.group)) found
  · split at found
    · split at found
      · cases found
        refine behind.widen (Nat.le_refl _) (Nat.le_trans (here.le_skip 1) (Nat.le_trans (Cursor.le_trivia _) ?_))
        exact Nat.le_trans (Cursor.le_skip 1 _) (Nat.le_trans (Cursor.le_behind _ _) (Cursor.le_skip 1 _))
      · cases found
    · split at found
      · next inner => exact reads.elementContent (behind.push_one (reads.element inner)) found
      · cases found
  · cases found

end Reads

theorem reads (fuel : Nat) : Reads fuel := by
  induction fuel with
  | zero =>
      exact
        { row := id
          token := fun laid => laid.take 1
          word := fun laid => laid.take 1
          group := Nat.le_refl _
          call := nofun
          typedCall := nofun
          applied := fun laid present => laidOut_ofReversed nofun laid present
          templateParts := id
          typeParts := nofun
          element := nofun
          attributeRow := nofun
          elementContent := nofun }
  | succ fuel reads =>
      exact
        { row := reads.row_succ
          token := reads.token_succ
          word := reads.word_succ
          group := reads.group_succ
          call := reads.call_succ
          typedCall := fun laid _ found => reads.typedCall_succ laid found
          applied := fun laid _ => reads.applied_succ laid
          templateParts := reads.templateParts_succ
          typeParts := reads.typeParts_succ
          element := reads.element_succ
          attributeRow := reads.attributeRow_succ
          elementContent := reads.elementContent_succ }

theorem laid_parse (dialect : Dialect) (text : List Char) : (parse dialect text).Laid := by
  have start : (Progress.start ⟨0, text⟩ .statement).Laid 0 := laidOut_nil 0
  unfold parse
  refine ⟨nofun, (reads _).row ?_⟩
  split
  · exact start.takeTo (Cursor.le_behind _ _)
  · exact start

/-! ## Parts of one tree -/

namespace Tree

mutual

theorem Laid.of_mem_all : ∀ {tree part : Tree}, tree.Laid → part ∈ tree.all →
    part.Laid ∧ tree.span.start ≤ part.span.start ∧ part.span.stop ≤ tree.span.stop
  | node _ _ _ _, _, laid, member => by
      rcases List.mem_cons.mp member with rfl | inside
      · exact ⟨laid, Nat.le_refl _, Nat.le_refl _⟩
      · exact LaidOut.of_mem_allOf laid.2 inside

theorem LaidOut.of_mem_allOf : ∀ {start stop : Nat} {trees : List Tree} {part : Tree}, LaidOut start stop trees →
    part ∈ allOf trees → part.Laid ∧ start ≤ part.span.start ∧ part.span.stop ≤ stop
  | _, _, [], _, _, member => nomatch member
  | _, _, _ :: _, _, laid, member => by
      rcases List.mem_append.mp member with first | later
      · obtain ⟨inner, before, behind⟩ := laid.2.1.of_mem_all first
        exact ⟨inner, Nat.le_trans laid.1 before, Nat.le_trans behind laid.2.2.le⟩
      · obtain ⟨inner, before, behind⟩ := laid.2.2.of_mem_allOf later
        exact ⟨inner, Nat.le_trans laid.1 (Nat.le_trans laid.2.1.le before), behind⟩

end

mutual

/-- Of two parts of a tree that is laid out, one is a part of the other, or one ends before the other. -/
theorem Laid.nested_or_apart : ∀ {tree first second : Tree}, tree.Laid → first ∈ tree.all → second ∈ tree.all →
    second ∈ first.all ∨ first ∈ second.all ∨ first.span.stop ≤ second.span.start ∨
      second.span.stop ≤ first.span.start
  | node _ _ _ _, _, _, laid, member, also => by
      rcases List.mem_cons.mp member with rfl | inside
      · exact .inl also
      · rcases List.mem_cons.mp also with rfl | insideAlso
        · exact .inr (.inl member)
        · exact LaidOut.nested_or_apart laid.2 inside insideAlso

theorem LaidOut.nested_or_apart : ∀ {start stop : Nat} {trees : List Tree} {first second : Tree},
    LaidOut start stop trees → first ∈ allOf trees → second ∈ allOf trees →
    second ∈ first.all ∨ first ∈ second.all ∨ first.span.stop ≤ second.span.start ∨
      second.span.stop ≤ first.span.start
  | _, _, [], _, _, _, member, _ => nomatch member
  | _, _, _ :: _, _, _, laid, member, also => by
      rcases List.mem_append.mp member with inFirst | later
      · have ends := (laid.2.1.of_mem_all inFirst).2.2
        rcases List.mem_append.mp also with alsoFirst | alsoLater
        · exact laid.2.1.nested_or_apart inFirst alsoFirst
        · exact .inr (.inr (.inl (Nat.le_trans ends (laid.2.2.of_mem_allOf alsoLater).2.1)))
      · have begins := (laid.2.2.of_mem_allOf later).2.1
        rcases List.mem_append.mp also with alsoFirst | alsoLater
        · exact .inr (.inr (.inr (Nat.le_trans (laid.2.1.of_mem_all alsoFirst).2.2 begins)))
        · exact laid.2.2.nested_or_apart later alsoLater

end

theorem mem_all_self (tree : Tree) : tree ∈ tree.all := by
  cases tree
  exact List.mem_cons_self

theorem mem_allOf {part : Tree} : part ∈ allOf trees ↔ ∃ tree ∈ trees, part ∈ tree.all := by
  induction trees with
  | nil => exact ⟨nofun, nofun⟩
  | cons tree rest ih => simp [allOf, ih]

theorem mem_all_of_mem_children {whole part : Tree} (member : tree ∈ whole.children) (inside : part ∈ tree.all) :
    part ∈ whole.all := by
  cases whole
  exact List.mem_cons_of_mem _ (mem_allOf.mpr ⟨tree, member, inside⟩)

/-- Two trees of a row are the same or apart. -/
theorem LaidOut.eq_or_apart {one other : Tree} (laid : LaidOut start stop trees) (member : one ∈ trees)
    (also : other ∈ trees) :
    one = other ∨ one.span.stop ≤ other.span.start ∨ other.span.stop ≤ one.span.start := by
  induction trees generalizing start with
  | nil => cases member
  | cons tree rest ih =>
      have behind : ∀ later ∈ rest, tree.span.stop ≤ later.span.start := fun later inside =>
        (laid.2.2.of_mem_allOf (mem_allOf.mpr ⟨later, inside, later.mem_all_self⟩)).2.1
      rcases List.mem_cons.mp member with rfl | later
      · rcases List.mem_cons.mp also with rfl | laterAlso
        · exact .inl rfl
        · exact .inr (.inl (behind other laterAlso))
      · rcases List.mem_cons.mp also with rfl | laterAlso
        · exact .inr (.inr (behind one later))
        · exact ih laid.2.2 later laterAlso

theorem LaidOut.pairwise {start stop : Nat} {trees : List Tree} (laid : LaidOut start stop trees) :
    trees.Pairwise fun first second => first.span.stop ≤ second.span.start := by
  induction trees generalizing start with
  | nil => exact .nil
  | cons tree rest ih =>
      exact .cons (fun later inside => (laid.2.2.of_mem_allOf (mem_allOf.mpr ⟨later, inside, later.mem_all_self⟩)).2.1)
        (ih laid.2.2)

theorem Laid.children (laid : tree.Laid) : LaidOut tree.span.start tree.span.stop tree.children := by
  cases tree
  exact laid.2

theorem Laid.pairwise_children (laid : tree.Laid) :
    tree.children.Pairwise fun first second => first.span.stop ≤ second.span.start :=
  laid.children.pairwise

mutual

theorem mem_all_trans : ∀ {whole tree part : Tree}, tree ∈ whole.all → part ∈ tree.all → part ∈ whole.all
  | node _ _ _ _, _, _, member, inside => by
      rcases List.mem_cons.mp member with rfl | below
      · exact inside
      · exact List.mem_cons_of_mem _ (mem_allOf_trans below inside)

theorem mem_allOf_trans : ∀ {trees : List Tree} {tree part : Tree}, tree ∈ allOf trees → part ∈ tree.all →
    part ∈ allOf trees
  | _ :: _, _, _, member, inside =>
      List.mem_append.mpr ((List.mem_append.mp member).imp (mem_all_trans · inside) (mem_allOf_trans · inside))

end

theorem eq_of_children_eq_nil {part : Tree} (none : tree.children = []) (member : part ∈ tree.all) : part = tree := by
  obtain ⟨_, _, _, children⟩ := tree
  obtain rfl : children = [] := none
  simpa [all, allOf] using member

theorem eq_or_exists_child {part : Tree} (member : part ∈ tree.all) :
    part = tree ∨ ∃ child ∈ tree.children, part ∈ child.all := by
  obtain ⟨_, _, _, children⟩ := tree
  exact (List.mem_cons.mp member).imp_right mem_allOf.mp

theorem Laid.eq_of_identifier {part : Tree} (laid : tree.Laid) (identifier : tree.kind = .identifier)
    (member : part ∈ tree.all) : part = tree := by
  cases tree
  exact eq_of_children_eq_nil (laid.1 identifier) member

end Tree

end TypedLiterals.Syntax
