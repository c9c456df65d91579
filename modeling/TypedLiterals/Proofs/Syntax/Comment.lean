import TypedLiterals.Proofs.Syntax.Reading

/-!
Comments and spaces in front of a token.

They are read the same whatever stands behind the first character of the token, and a row is read on behind
them.
-/

namespace TypedLiterals.Syntax

open Text (byteLength)

variable {lead tail other rest : List Char} {mark : Char}

theorem not_suffix_of_length {text : List Char} (shorter : rest.length < text.length) : ¬ text <:+ rest :=
  fun suffix => Nat.not_le_of_lt shorter suffix.length_le

variable (other) in
theorem span_swap {test : Char → Bool} (reached : mark :: tail <:+ ((lead ++ mark :: tail).span test).2) :
    ∃ left, ((lead ++ mark :: tail).span test).2 = left ++ mark :: tail ∧
      (lead ++ mark :: other).span test = (((lead ++ mark :: tail).span test).1, left ++ mark :: other) := by
  simp only [List.span_eq_takeWhile_dropWhile] at reached ⊢
  induction lead with
  | nil =>
      cases passed : test mark with
      | true =>
          rw [List.nil_append, List.dropWhile_cons_of_pos passed] at reached
          refine absurd reached (not_suffix_of_length ?_)
          exact Nat.lt_succ_of_le (List.dropWhile_sublist _).length_le
      | false =>
          refine ⟨[], ?_, ?_⟩ <;> simp [passed]
  | cons first lead ih =>
      cases passed : test first with
      | true =>
          simp only [List.cons_append, List.dropWhile_cons_of_pos passed, List.takeWhile_cons_of_pos passed]
            at reached ⊢
          obtain ⟨left, same, swapped⟩ := ih reached
          obtain ⟨taken, dropped⟩ := Prod.mk.inj swapped
          exact ⟨left, same, by rw [taken, dropped]⟩
      | false => exact ⟨first :: lead, by simp [passed], by simp [passed]⟩

theorem length_blockCommentRest (text : List Char) : (blockCommentRest text).2.length ≤ text.length := by
  induction text using blockCommentRest.induct with
  | case1 rest => simp [blockCommentRest]; omega
  | case2 character rest _ ih => simp only [blockCommentRest, List.length_cons]; omega
  | case3 => simp [blockCommentRest]

variable (other) in
theorem blockCommentRest_swap (plain : mark ≠ '/' ∧ mark ≠ '*')
    (reached : mark :: tail <:+ (blockCommentRest (lead ++ mark :: tail)).2) :
    ∃ left, (blockCommentRest (lead ++ mark :: tail)).2 = left ++ mark :: tail ∧
      blockCommentRest (lead ++ mark :: other) =
        ((blockCommentRest (lead ++ mark :: tail)).1, left ++ mark :: other) := by
  induction lead using blockCommentRest.induct with
  | case1 rest => exact ⟨rest, by simp [blockCommentRest], by simp [blockCommentRest]⟩
  | case2 character rest notEnd ih =>
      have step : ∀ text : List Char, blockCommentRest (character :: (rest ++ mark :: text)) =
          (character :: (blockCommentRest (rest ++ mark :: text)).1, (blockCommentRest (rest ++ mark :: text)).2) := by
        intro text
        refine blockCommentRest.eq_2 _ _ fun later star same => ?_
        cases rest with
        | nil => exact plain.1 (List.cons.inj same).1
        | cons next rest =>
            obtain ⟨rfl, _⟩ := List.cons.inj same
            exact notEnd rest star rfl
      rw [List.cons_append, step] at reached ⊢
      obtain ⟨left, same, swapped⟩ := ih reached
      exact ⟨left, same, by rw [List.cons_append, step, swapped]⟩
  | case3 =>
      have step : blockCommentRest (mark :: tail) =
          (mark :: (blockCommentRest tail).1, (blockCommentRest tail).2) :=
        blockCommentRest.eq_2 _ _ fun _ star _ => plain.2 star
      rw [List.nil_append, step] at reached
      exact absurd reached (not_suffix_of_length (Nat.lt_succ_of_le (length_blockCommentRest tail)))

theorem blockCommentRest_suffix (text : List Char) : (blockCommentRest text).2 <:+ text := by
  induction text using blockCommentRest.induct with
  | case1 rest => exact ⟨['*', '/'], by simp [blockCommentRest]⟩
  | case2 character rest _ ih =>
      simp only [blockCommentRest]
      exact ih.trans (List.suffix_cons _ _)
  | case3 => exact List.suffix_refl _

theorem span_suffix (test : Char → Bool) (text : List Char) : (text.span test).2 <:+ text := by
  rw [List.span_eq_takeWhile_dropWhile]
  exact List.dropWhile_suffix test

theorem Cursor.comment?_suffix {cursor after : Cursor} (found : cursor.comment? = some after) :
    after.rest <:+ cursor.rest := by
  obtain ⟨offset, text⟩ := cursor
  unfold Cursor.comment? at found
  split at found
  · next rest same =>
      cases found
      dsimp only at same ⊢
      rw [same, Cursor.behind_eq]
      exact (span_suffix _ rest).trans ((List.suffix_cons _ _).trans (List.suffix_cons _ _))
  · next rest same =>
      cases found
      dsimp only at same ⊢
      rw [same, Cursor.behind_eq]
      exact (blockCommentRest_suffix rest).trans ((List.suffix_cons _ _).trans (List.suffix_cons _ _))
  · cases found

theorem trivia_suffix (count : Nat) (cursor : Cursor) : (trivia count cursor).2.rest <:+ cursor.rest := by
  induction count generalizing cursor with
  | zero => exact List.suffix_refl _
  | succ count ih =>
      have skipped : cursor.skipSpace.rest <:+ cursor.rest := by
        rw [Cursor.skipSpace, Cursor.behind_eq]
        exact span_suffix isSpace cursor.rest
      rw [trivia]
      split
      · exact skipped
      · next after found => exact (ih after).trans ((Cursor.comment?_suffix found).trans skipped)

theorem trivia_suffix_skipSpace (count : Nat) (cursor : Cursor) :
    (trivia (count + 1) cursor).2.rest <:+ cursor.skipSpace.rest := by
  rw [trivia]
  split
  · exact List.suffix_refl _
  · next after found => exact (trivia_suffix count after).trans (Cursor.comment?_suffix found)

variable (lead tail other) in
/-- A comment that ends in front of a mark is the same whatever stands behind the mark. -/
theorem comment?_swap (plain : mark ≠ '/' ∧ mark ≠ '*') (offset : Nat) :
    match (Cursor.mk offset (lead ++ mark :: tail)).comment? with
    | none => (Cursor.mk offset (lead ++ mark :: other)).comment? = none
    | some after => mark :: tail <:+ after.rest → ∃ left, after.rest = left ++ mark :: tail ∧
        (Cursor.mk offset (lead ++ mark :: other)).comment? = some ⟨after.offset, left ++ mark :: other⟩ := by
  match lead with
  | [] => simp [Cursor.comment?, plain]
  | [first] => simp [Cursor.comment?, plain]
  | first :: second :: lead =>
      by_cases line : first = '/' ∧ second = '/'
      · obtain ⟨rfl, rfl⟩ := line
        intro reached
        obtain ⟨left, same, swapped⟩ := span_swap other reached
        refine ⟨left, same, ?_⟩
        change some ((Cursor.skip 2 _).behind ((lead ++ mark :: other).span (!isLineBreak ·))) = _
        rw [swapped]
        simp [Cursor.skip, Cursor.behind_eq, lineCommentRest]
      · by_cases block : first = '/' ∧ second = '*'
        · obtain ⟨rfl, rfl⟩ := block
          intro reached
          obtain ⟨left, same, swapped⟩ := blockCommentRest_swap other plain reached
          refine ⟨left, same, ?_⟩
          change some ((Cursor.skip 2 _).behind (blockCommentRest (lead ++ mark :: other))) = _
          rw [swapped]
          simp [Cursor.skip, Cursor.behind_eq]
        · have none : ∀ text : List Char, (Cursor.mk offset (first :: second :: text)).comment? = none := by
            intro text
            unfold Cursor.comment?
            split
            · next same => cases same; exact absurd ⟨rfl, rfl⟩ line
            · next same => cases same; exact absurd ⟨rfl, rfl⟩ block
            · rfl
          simp [none]

/-- Comments and spaces that lead up to a mark do so whatever stands behind it. -/
theorem trivia_swap (plain : mark ≠ '/' ∧ mark ≠ '*') {count offset : Nat}
    (reached : (trivia count ⟨offset, lead ++ mark :: tail⟩).2.rest = mark :: tail) :
    trivia count ⟨offset, lead ++ mark :: other⟩ =
      ((trivia count ⟨offset, lead ++ mark :: tail⟩).1,
        ⟨(trivia count ⟨offset, lead ++ mark :: tail⟩).2.offset, mark :: other⟩) := by
  induction count generalizing lead offset with
  | zero =>
      have empty : lead = [] := by simpa [trivia] using reached
      subst empty
      rfl
  | succ count ih =>
      have start : ∀ text : List Char, (Cursor.mk offset text).skipSpace =
          ⟨offset + byteLength (text.span isSpace).1, (text.span isSpace).2⟩ := fun text => by
        rw [Cursor.skipSpace, Cursor.behind_eq]
      have suffix := trivia_suffix_skipSpace count ⟨offset, lead ++ mark :: tail⟩
      rw [reached, start] at suffix
      obtain ⟨left, same, swapped⟩ := span_swap other suffix
      have atOther := start (lead ++ mark :: other)
      have atTail := start (lead ++ mark :: tail)
      rw [swapped] at atOther
      rw [same] at atTail
      have comment := comment?_swap left tail other plain
        (offset + byteLength ((lead ++ mark :: tail).span isSpace).1)
      simp only [trivia, atTail, atOther] at reached ⊢
      split at reached
      · next none =>
          rw [none] at comment
          have empty : left = [] := by simpa using reached
          subst empty
          dsimp only at comment
          rw [comment]
          rfl
      · next after found =>
          rw [found] at comment
          dsimp only at comment
          obtain ⟨behind, rest, foundAlso⟩ := comment (by
            rw [← reached]
            exact trivia_suffix count after)
          obtain ⟨place, text⟩ := after
          dsimp only at rest
          subst rest
          rw [foundAlso]
          dsimp only at reached ⊢
          rw [ih reached]

/-! ## Rows -/

variable {setting : Setting} {progress : Progress} {fuel : Nat}

theorem Cursor.skipSpace_skipSpace (cursor : Cursor) : cursor.skipSpace.skipSpace = cursor.skipSpace := by
  have solid := List.head?_dropWhile_not isSpace cursor.rest
  simp only [Cursor.skipSpace, Cursor.behind_eq, List.span_eq_takeWhile_dropWhile]
  cases rest : cursor.rest.dropWhile isSpace with
  | nil => rfl
  | cons first rest_ =>
      have other : isSpace first = false := by simpa [rest] using solid
      rw [List.takeWhile_cons_of_neg (by simp [other]), List.dropWhile_cons_of_neg (by simp [other])]
      rfl

theorem row_skipSpace : row (fuel + 1) setting { progress with cursor := progress.cursor.skipSpace } =
    row (fuel + 1) setting progress := by
  rw [row, row, Cursor.skipSpace_skipSpace]
  rfl

variable (progress) in
theorem row_trivia (count : Nat) (cursor : Cursor) :
    row (fuel + 1 + (trivia count cursor).1.length) setting { progress with cursor := cursor } =
      row (fuel + 1) setting { progress with
        cursor := (trivia count cursor).2
        reversed := (trivia count cursor).1.reverse ++ progress.reversed } := by
  induction count generalizing cursor progress with
  | zero => rfl
  | succ count ih =>
      rw [trivia]
      split
      · exact row_skipSpace.symm
      · next after found =>
          dsimp only
          rw [List.length_cons, ← Nat.add_assoc, row, found, List.reverse_cons, List.append_assoc]
          exact ih (progress.push (.leaf .comment ⟨cursor.skipSpace.offset, after.offset⟩) progress.before after) after

/-! ## The beginning of a program -/

/-- The offset behind the last character of a text in which a cursor stands. -/
def Cursor.stop (cursor : Cursor) : Nat :=
  cursor.offset + byteLength cursor.rest

theorem Cursor.stop_behind {taken : List Char} {cursor : Cursor} (whole : taken ++ rest = cursor.rest) :
    (cursor.behind (taken, rest)).stop = cursor.stop := by
  rw [Cursor.behind_eq, Cursor.stop, Cursor.stop, ← whole, Text.byteLength_append, Nat.add_assoc]

theorem span_append (test : Char → Bool) (text : List Char) :
    (text.span test).1 ++ (text.span test).2 = text := by
  rw [List.span_eq_takeWhile_dropWhile, List.takeWhile_append_dropWhile]

theorem blockCommentRest_append (text : List Char) :
    (blockCommentRest text).1 ++ (blockCommentRest text).2 = text := by
  induction text using blockCommentRest.induct with
  | case1 rest => simp [blockCommentRest]
  | case2 character rest _ ih => simp only [blockCommentRest, List.cons_append, ih]
  | case3 => simp [blockCommentRest]

theorem Cursor.stop_skipSpace (cursor : Cursor) : cursor.skipSpace.stop = cursor.stop :=
  Cursor.stop_behind (span_append isSpace cursor.rest)

theorem Cursor.stop_comment? {cursor after : Cursor} (found : cursor.comment? = some after) :
    after.stop = cursor.stop := by
  obtain ⟨offset, text⟩ := cursor
  have skipped : ∀ first second rest, ((Cursor.mk offset (first :: second :: rest)).skip 2).stop =
      (Cursor.mk offset (first :: second :: rest)).stop := fun first second rest => by
    have cut : (first :: second :: rest).splitAt 2 = ([first, second], rest) := by
      rw [List.splitAt_eq]
      rfl
    rw [Cursor.skip, cut]
    exact Cursor.stop_behind rfl
  have behind : ∀ first second rest parts, parts.1 ++ parts.2 = rest →
      (((Cursor.mk offset (first :: second :: rest)).skip 2).behind parts).stop =
        (Cursor.mk offset (first :: second :: rest)).stop := by
    intro first second rest parts whole
    rw [← skipped]
    refine Cursor.stop_behind ?_
    rw [whole, Cursor.skip, Cursor.behind_eq]
    simp
  unfold Cursor.comment? at found
  split at found
  · next rest same =>
      cases found
      dsimp only at same
      subst same
      exact behind _ _ _ _ (span_append _ rest)
  · next rest same =>
      cases found
      dsimp only at same
      subst same
      exact behind _ _ _ _ (blockCommentRest_append rest)
  · cases found

theorem stop_trivia (count : Nat) (cursor : Cursor) : (trivia count cursor).2.stop = cursor.stop := by
  induction count generalizing cursor with
  | zero => rfl
  | succ count ih =>
      rw [trivia]
      split
      · exact cursor.stop_skipSpace
      · next after found => exact (ih after).trans ((Cursor.stop_comment? found).trans cursor.stop_skipSpace)

theorem length_trivia (count : Nat) (cursor : Cursor) : (trivia count cursor).1.length ≤ count := by
  induction count generalizing cursor with
  | zero => exact Nat.le_refl 0
  | succ count ih =>
      rw [trivia]
      split
      · exact Nat.zero_le _
      · next after _ => exact Nat.succ_le_succ (ih after)

/-- The place behind a hashbang, where reading a program begins. -/
def opening (text : List Char) : Cursor :=
  if "#!".toList.isPrefixOf text then (Cursor.mk 0 text).behind (hashbangRest text) else ⟨0, text⟩

theorem exists_parse (dialect : Dialect) (text : List Char) :
    ∃ progress : Progress, progress.before = .statement ∧ progress.cursor = opening text ∧
      (parse dialect text).children = (row (8 * text.length + 16) ⟨dialect, []⟩ progress).reversed.reverse := by
  unfold parse opening
  dsimp only
  split
  · exact ⟨_, rfl, rfl, rfl⟩
  · exact ⟨_, rfl, rfl, rfl⟩

/-- Whether nothing but a hashbang, comments and spaces stands in front of a statement. -/
def Blank (lead : List Char) : Prop :=
  (opening (lead ++ ['i'])).trivia.2.rest = ['i']

theorem Blank.opening_swap (blank : Blank lead) (rest : List Char) :
    ∃ left offset, opening (lead ++ ['i']) = ⟨offset, left ++ ['i']⟩ ∧
      opening (lead ++ 'i' :: rest) = ⟨offset, left ++ 'i' :: rest⟩ ∧
      offset + byteLength left = byteLength lead ∧ left.length ≤ lead.length := by
  have start : ∀ rest, ("#!".toList.isPrefixOf (lead ++ 'i' :: rest)) = "#!".toList.isPrefixOf (lead ++ ['i']) := by
    intro rest
    match lead with
    | [] => rfl
    | [first] => simp [List.isPrefixOf]
    | first :: second :: lead => simp [List.isPrefixOf]
  unfold opening
  rw [start rest]
  cases hashbang : "#!".toList.isPrefixOf (lead ++ ['i']) with
  | false => exact ⟨lead, 0, rfl, rfl, Nat.zero_add _, Nat.le_refl _⟩
  | true =>
      have suffix : ['i'] <:+ (hashbangRest (lead ++ ['i'])).2 := by
        have suffix := trivia_suffix (opening (lead ++ ['i'])).rest.length (opening (lead ++ ['i']))
        rw [show (trivia _ (opening (lead ++ ['i']))).2.rest = ['i'] from blank, opening, hashbang] at suffix
        exact suffix
      obtain ⟨left, same, swapped⟩ := span_swap rest suffix
      have whole := span_append (· ≠ '\n') (lead ++ ['i'])
      rw [same, ← List.append_assoc] at whole
      have front := List.append_cancel_right whole
      refine ⟨left, byteLength (hashbangRest (lead ++ ['i'])).1, ?_, ?_, ?_, ?_⟩
      · simp [Cursor.behind_eq, hashbangRest, ← same]
      · simp only [if_true, hashbangRest]
        rw [swapped, Cursor.behind_eq, Nat.zero_add]
      · exact (Text.byteLength_append _ left).symm.trans (congrArg byteLength front)
      · rw [← congrArg List.length front, List.length_append]
        exact Nat.le_add_left _ _

/-- The reader comes to a statement that has nothing but comments in front of it. -/
theorem Blank.exists_row (blank : Blank lead) (dialect : Dialect) (rest : List Char) :
    ∃ progress fuel, progress.before = .statement ∧ progress.cursor = ⟨byteLength lead, 'i' :: rest⟩ ∧
      rest.length + 2 ≤ fuel ∧ (parse dialect (lead ++ 'i' :: rest)).children =
        (row fuel ⟨dialect, []⟩ progress).reversed.reverse := by
  obtain ⟨progress, ready, here, read⟩ := exists_parse dialect (lead ++ 'i' :: rest)
  obtain ⟨left, offset, atMark, atRest, place, shorter⟩ := blank.opening_swap rest
  have reached : (trivia (left ++ ['i']).length ⟨offset, left ++ ['i']⟩).2.rest = ['i'] := by
    have reached := blank
    rw [Blank, atMark] at reached
    exact reached
  have swapped := @trivia_swap left [] rest 'i' (by decide) (left ++ ['i']).length offset reached
  have count := length_trivia (left ++ ['i']).length ⟨offset, left ++ ['i']⟩
  have stop := stop_trivia (left ++ ['i']).length ⟨offset, left ++ ['i']⟩
  rw [Cursor.stop, reached, Cursor.stop, Text.byteLength_append, ← Nat.add_assoc, place] at stop
  rw [Nat.add_right_cancel stop] at swapped
  rw [atRest] at here
  obtain ⟨behind, comments⟩ : ∃ behind, behind = (trivia (left ++ ['i']).length ⟨offset, left ++ ['i']⟩).1 :=
    ⟨_, rfl⟩
  rw [← comments] at count swapped
  rw [List.length_append, List.length_singleton] at count
  obtain ⟨fuel, enough⟩ : ∃ fuel, 8 * (lead ++ 'i' :: rest).length + 16 = fuel + 1 + behind.length :=
    ⟨8 * (lead ++ 'i' :: rest).length + 15 - behind.length, by
      rw [List.length_append, List.length_cons]
      omega⟩
  have rows := @row_trivia ⟨dialect, []⟩ progress fuel (left ++ ['i']).length ⟨offset, left ++ 'i' :: rest⟩
  rw [swapped, ← enough, ← here] at rows
  refine ⟨{ progress with
    cursor := ⟨byteLength lead, 'i' :: rest⟩
    reversed := behind.reverse ++ progress.reversed }, fuel + 1, ready, rfl, ?_, by rw [read, rows]⟩
  rw [List.length_append, List.length_cons] at enough
  omega

end TypedLiterals.Syntax
