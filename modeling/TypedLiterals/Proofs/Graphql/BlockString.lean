import Mathlib.Data.List.DropRight
import TypedLiterals.Proofs.Graphql.Rendering

/-!
Block strings in their re-printed form.

The value of a block string is trimmed and dedented, and re-printing writes a body that has this value
again. So a re-printed block string is one that re-printing keeps, and a body that no closing quotes
stand in stays one.
-/

namespace TypedLiterals.Graphql.BlockString

/-! ## Lines -/

/-- A text on one line. -/
def OneLine (line : List Char) : Prop :=
  ∀ character ∈ line, isLineEnd character = false

theorem lines_ne_nil (text : List Char) : lines text ≠ [] := by
  fun_cases lines text <;> simp_all

theorem lines_cons {character : Char} (text : List Char) (inLine : isLineEnd character = false) :
    ∃ line later, lines text = line :: later ∧
      lines (character :: text) = (character :: line) :: later := by
  obtain ⟨line, later, split⟩ := List.exists_cons_of_ne_nil (lines_ne_nil text)
  refine ⟨line, later, split, ?_⟩
  rw [lines]
  · simp [inLine, split]
  · rintro rest rfl
    exact absurd inLine (by decide)

theorem lines_lineEnd {character : Char} (text : List Char) (lineEnd : isLineEnd character = true) :
    ∃ rest, lines (character :: text) = [] :: lines rest ∧ ∀ line ∈ lines rest, line ∈ lines text := by
  by_cases double : ∃ rest, character = '\r' ∧ text = '\n' :: rest
  · obtain ⟨rest, rfl, rfl⟩ := double
    have newline : lines ('\n' :: rest) = [] :: lines rest := by rw [lines] <;> simp [isLineEnd]
    exact ⟨rest, by rw [lines], fun line member => newline ▸ List.mem_cons_of_mem _ member⟩
  · refine ⟨text, ?_, fun line member => member⟩
    rw [lines]
    · simp [lineEnd]
    · exact fun rest carriage newline => double ⟨rest, carriage, newline⟩

theorem oneLine_of_mem_lines (text : List Char) : ∀ line ∈ lines text, OneLine line := by
  induction text with
  | nil => simp [lines, OneLine]
  | cons character rest ih =>
      cases kind : isLineEnd character with
      | true =>
          obtain ⟨after, split, below⟩ := lines_lineEnd rest kind
          intro line member
          rw [split] at member
          rcases List.mem_cons.mp member with rfl | later
          · exact nofun
          · exact ih line (below line later)
      | false =>
          obtain ⟨first, later, split, joined⟩ := lines_cons rest kind
          rw [split] at ih
          intro line member
          rw [joined] at member
          rcases List.mem_cons.mp member with rfl | member
          · intro other inside
            rcases List.mem_cons.mp inside with rfl | inside
            · exact kind
            · exact ih first List.mem_cons_self other inside
          · exact ih line (List.mem_cons_of_mem _ member)

theorem lines_of_oneLine {line : List Char} (inLine : OneLine line) : lines line = [line] := by
  induction line with
  | nil => rfl
  | cons character rest ih =>
      obtain ⟨first, later, split, joined⟩ := lines_cons rest (inLine character List.mem_cons_self)
      rw [ih fun other member => inLine other (List.mem_cons_of_mem _ member)] at split
      cases split
      exact joined

theorem lines_append_newline {line : List Char} (inLine : OneLine line) (text : List Char) :
    lines (line ++ '\n' :: text) = line :: lines text := by
  induction line with
  | nil =>
      obtain ⟨rest, split, _⟩ := lines_lineEnd text (show isLineEnd '\n' = true by decide)
      rw [List.nil_append, lines] <;> simp [isLineEnd]
  | cons character rest ih =>
      obtain ⟨first, later, split, joined⟩ :=
        lines_cons (rest ++ '\n' :: text) (inLine character List.mem_cons_self)
      rw [ih fun other member => inLine other (List.mem_cons_of_mem _ member)] at split
      cases split
      exact joined

/-- Lines joined by line feeds. -/
def unlines (texts : List (List Char)) : List Char :=
  List.intercalate ['\n'] texts

theorem unlines_cons {texts : List (List Char)} (line : List Char) (present : texts ≠ []) :
    unlines (line :: texts) = line ++ '\n' :: unlines texts := by
  rw [unlines, List.intercalate_cons_of_ne_nil present, List.append_assoc]
  rfl

theorem lines_unlines {texts : List (List Char)} (present : texts ≠ [])
    (inLine : ∀ line ∈ texts, OneLine line) : lines (unlines texts) = texts := by
  induction texts with
  | nil => contradiction
  | cons line later ih =>
      have first := inLine line List.mem_cons_self
      by_cases last : later = []
      · subst last
        simpa [unlines] using lines_of_oneLine first
      · rw [unlines_cons line last, lines_append_newline first,
          ih last fun other member => inLine other (List.mem_cons_of_mem _ member)]

theorem unlines_append_empty {texts : List (List Char)} (present : texts ≠ []) :
    unlines (texts ++ [[]]) = unlines texts ++ ['\n'] := by
  induction texts with
  | nil => contradiction
  | cons line later ih =>
      by_cases last : later = []
      · subst last
        simp [unlines, List.intercalate]
      · rw [List.cons_append, unlines_cons line (by simp), ih last, unlines_cons line last,
          List.append_assoc, List.cons_append]

/-! ## Indentation -/

theorem foldl_min_le (first : Nat) (list : List Nat) :
    list.foldl min first ≤ first ∧ ∀ number ∈ list, list.foldl min first ≤ number := by
  induction list generalizing first with
  | nil => simp
  | cons next rest ih =>
      obtain ⟨below, each⟩ := ih (min first next)
      refine ⟨below.trans (Nat.min_le_left _ _), ?_⟩
      intro number member
      rcases List.mem_cons.mp member with rfl | later
      · exact below.trans (Nat.min_le_right _ _)
      · exact each number later

theorem foldl_min_mem (first : Nat) (list : List Nat) :
    list.foldl min first ∈ first :: list := by
  induction list generalizing first with
  | nil => simp
  | cons next rest ih =>
      rcases List.mem_cons.mp (ih (min first next)) with same | later
      · rw [List.foldl_cons, same]
        rcases Nat.le_total first next with below | above
        · simp [Nat.min_eq_left below]
        · simp [Nat.min_eq_right above]
      · exact List.mem_cons_of_mem _ (List.mem_cons_of_mem _ later)

theorem least_le {list : List Nat} {number : Nat} (member : number ∈ list) : least list ≤ number := by
  cases list with
  | nil => contradiction
  | cons first rest =>
      rcases List.mem_cons.mp member with rfl | later
      · exact (foldl_min_le _ rest).1
      · exact (foldl_min_le first rest).2 number later

theorem least_mem {list : List Nat} (present : list ≠ []) : least list ∈ list := by
  cases list with
  | nil => contradiction
  | cons first rest => exact foldl_min_mem first rest

/-- The lines that are not blank. -/
def inked (texts : List (List Char)) : List (List Char) :=
  texts.filter (!isBlank ·)

/-- The least indentation of some lines, blank ones not counted. -/
def leastIndentation (texts : List (List Char)) : Nat :=
  least ((inked texts).map indentation)

theorem commonIndentation_eq (body : List Char) :
    commonIndentation body = leastIndentation ((lines body).drop 1) := rfl

theorem leastIndentation_congr {left right : List (List Char)} (same : inked left = inked right) :
    leastIndentation left = leastIndentation right := by
  rw [leastIndentation, leastIndentation, same]

theorem leastIndentation_eq_zero {texts : List (List Char)} {line : List Char}
    (member : line ∈ inked texts) (outmost : indentation line = 0) : leastIndentation texts = 0 := by
  have below := least_le (List.mem_map_of_mem (f := indentation) member)
  rw [outmost] at below
  exact Nat.le_zero.mp below

theorem isBlank_drop {line : List Char} {width : Nat} (fits : width ≤ indentation line) :
    isBlank (line.drop width) = isBlank line := by
  induction line generalizing width with
  | nil => simp
  | cons character rest ih =>
      cases width with
      | zero => rfl
      | succ width =>
          cases blank : isBlankCharacter character with
          | false => simp [indentation, blank] at fits
          | true =>
              have fitsRest : width ≤ indentation rest := by
                simpa [indentation, blank] using fits
              rw [List.drop_succ_cons, ih fitsRest]
              simp [isBlank, blank]

theorem indentation_drop {line : List Char} {width : Nat} (fits : width ≤ indentation line) :
    indentation (line.drop width) = indentation line - width := by
  induction line generalizing width with
  | nil => simp [indentation]
  | cons character rest ih =>
      cases width with
      | zero => rfl
      | succ width =>
          cases blank : isBlankCharacter character with
          | false => simp [indentation, blank] at fits
          | true =>
              have fitsRest : width ≤ indentation rest := by
                simpa [indentation, blank] using fits
              have longer : indentation (character :: rest) = indentation rest + 1 := by
                simp [indentation, blank]
              rw [List.drop_succ_cons, ih fitsRest, longer]
              omega

theorem isBlank_drop_of_isBlank {line : List Char} (width : Nat) (blank : isBlank line = true) :
    isBlank (line.drop width) = true := by
  rw [isBlank, List.all_eq_true] at blank ⊢
  exact fun character member => blank character (List.mem_of_mem_drop member)

theorem isBlankCharacter_of_mem_take {line : List Char} {width : Nat}
    (fits : isBlank line = true ∨ width ≤ indentation line) :
    ∀ character ∈ line.take width, isBlankCharacter character = true := by
  rcases fits with blank | fits
  · rw [isBlank, List.all_eq_true] at blank
    exact fun character member => blank character (List.mem_of_mem_take member)
  · intro character member
    have within : line.take width <+: line.takeWhile isBlankCharacter :=
      List.prefix_of_prefix_length_le (List.take_prefix _ _) (List.takeWhile_prefix _)
        (by rw [List.length_take]; exact (Nat.min_le_left _ _).trans fits)
    exact List.mem_takeWhile_imp (within.subset member)

theorem fits_commonIndentation {body line : List Char} (member : line ∈ (lines body).drop 1) :
    isBlank line = true ∨ commonIndentation body ≤ indentation line := by
  cases blank : isBlank line with
  | true => exact .inl rfl
  | false =>
      refine .inr (least_le (List.mem_map_of_mem (List.mem_filter.mpr ⟨member, ?_⟩)))
      simp [blank]

/-- Of dedented lines that are not all blank, one is not indented. -/
theorem exists_outmost {body : List Char}
    (present : inked (((lines body).drop 1).map (List.drop (commonIndentation body))) ≠ []) :
    ∃ line ∈ inked (((lines body).drop 1).map (List.drop (commonIndentation body))),
      indentation line = 0 := by
  have some : inked ((lines body).drop 1) ≠ [] := by
    intro none
    apply present
    rw [inked, List.filter_eq_nil_iff] at none ⊢
    intro line member
    obtain ⟨original, found, rfl⟩ := List.mem_map.mp member
    have blank : isBlank original = true := by simpa using none original found
    simp [isBlank_drop_of_isBlank _ blank]
  have depths : (inked ((lines body).drop 1)).map indentation ≠ [] := by simpa using some
  obtain ⟨line, member, least⟩ := List.mem_map.mp (least_mem depths)
  have width : indentation line = commonIndentation body := least
  rw [inked, List.mem_filter] at member
  refine ⟨line.drop (commonIndentation body), ?_, ?_⟩
  · rw [inked, List.mem_filter]
    refine ⟨List.mem_map_of_mem member.1, ?_⟩
    rw [isBlank_drop width.ge]
    exact member.2
  · rw [indentation_drop width.ge, width, Nat.sub_self]

/-! ## Trimming -/

/-- Lines of which the first and the last are not blank. -/
def Trimmed (texts : List (List Char)) : Prop :=
  texts.dropWhile isBlank = texts ∧ texts.rdropWhile isBlank = texts

theorem trimBlankLines_eq (texts : List (List Char)) :
    trimBlankLines texts = (texts.dropWhile isBlank).rdropWhile isBlank := rfl

theorem dropWhile_of_prefix {texts before : List (List Char)} (within : before <+: texts)
    (kept : texts.dropWhile isBlank = texts) : before.dropWhile isBlank = before := by
  cases before with
  | nil => rfl
  | cons line later =>
      obtain ⟨rest, rfl⟩ := within
      have inked : ¬ isBlank line = true :=
        List.dropWhile_eq_self_iff.mp kept (by simp)
      simp [inked]

theorem trimmed_trimBlankLines (texts : List (List Char)) : Trimmed (trimBlankLines texts) := by
  refine ⟨?_, List.rdropWhile_idempotent _ _⟩
  exact dropWhile_of_prefix (List.rdropWhile_prefix _ _) (List.dropWhile_idempotent _ _)

theorem inked_append_of_blank {texts blanks : List (List Char)}
    (blank : ∀ line ∈ blanks, isBlank line = true) :
    inked (blanks ++ texts) = inked texts ∧ inked (texts ++ blanks) = inked texts := by
  have none : blanks.filter (!isBlank ·) = [] := by simpa using blank
  constructor
  · rw [inked, List.filter_append, none, List.nil_append, inked]
  · rw [inked, List.filter_append, none, List.append_nil, inked]

theorem inked_trimBlankLines (texts : List (List Char)) : inked (trimBlankLines texts) = inked texts := by
  have front : texts.takeWhile isBlank ++ texts.dropWhile isBlank = texts :=
    List.takeWhile_append_dropWhile
  have back : trimBlankLines texts ++ (texts.dropWhile isBlank).rtakeWhile isBlank =
      texts.dropWhile isBlank :=
    List.rdropWhile_append_rtakeWhile
  calc inked (trimBlankLines texts)
      = inked (texts.dropWhile isBlank) := by
        rw [← (inked_append_of_blank fun line member => List.mem_rtakeWhile_imp member).2, back]
    _ = inked texts := by
        rw [← (inked_append_of_blank fun line member => List.mem_takeWhile_imp member).1, front]

theorem trimBlankLines_append {before texts after : List (List Char)} (trimmed : Trimmed texts)
    (present : texts ≠ []) (blankBefore : ∀ line ∈ before, isBlank line = true)
    (blankAfter : ∀ line ∈ after, isBlank line = true) :
    trimBlankLines (before ++ (texts ++ after)) = texts := by
  have front : (texts ++ after).dropWhile isBlank = texts ++ after := by
    obtain ⟨line, later, rfl⟩ := List.exists_cons_of_ne_nil present
    have inked : ¬ isBlank line = true :=
      List.dropWhile_eq_self_iff.mp trimmed.1 (by simp)
    simp [inked]
  have back : (texts ++ after).rdropWhile isBlank = texts.rdropWhile isBlank := by
    rw [List.rdropWhile, List.reverse_append, List.dropWhile_append_of_pos]
    · rfl
    · simpa using blankAfter
  rw [trimBlankLines_eq, List.dropWhile_append_of_pos blankBefore, front, back, trimmed.2]

/-! ## Values -/

/-- The lines of the value of a block string. -/
def valueLines (body : List Char) : List (List Char) :=
  trimBlankLines (dedent (commonIndentation body) (lines body))

theorem value_eq (body : List Char) : value body = unlines (valueLines body) := rfl

/-- Lines that dedenting and trimming keep, once a line end stands before them where their own text
would be taken for indentation. -/
structure Settled (texts : List (List Char)) : Prop where
  oneLine : ∀ line ∈ texts, OneLine line
  trimmed : Trimmed texts
  outmost : 0 < leastIndentation (texts.drop 1) → ∀ line ∈ texts.head?, indentation line = 0

theorem mem_trimBlankLines {texts : List (List Char)} {line : List Char}
    (member : line ∈ trimBlankLines texts) : line ∈ texts :=
  (List.dropWhile_sublist _).subset ((List.rdropWhile_prefix _ _).subset member)

/-- Every line of a value is a line of the body, or what is left of one when blanks are taken off. -/
theorem exists_of_mem_valueLines {body line : List Char} (member : line ∈ valueLines body) :
    ∃ original ∈ lines body, ∃ width, line = original.drop width ∧
      ∀ character ∈ original.take width, isBlankCharacter character = true := by
  have dedented := mem_trimBlankLines member
  obtain ⟨first, rest, split⟩ := List.exists_cons_of_ne_nil (lines_ne_nil body)
  rw [split, dedent] at dedented
  rcases List.mem_cons.mp dedented with rfl | later
  · exact ⟨line, by rw [split]; exact List.mem_cons_self, 0, rfl, nofun⟩
  · obtain ⟨original, found, rfl⟩ := List.mem_map.mp later
    have below : original ∈ (lines body).drop 1 := by rw [split]; exact found
    exact ⟨original, List.mem_of_mem_drop below, _, rfl,
      isBlankCharacter_of_mem_take (fits_commonIndentation below)⟩

theorem outmost_valueLines {body line : List Char} {later : List (List Char)}
    (split : valueLines body = line :: later) (deeper : 0 < leastIndentation later) :
    indentation line = 0 := by
  obtain ⟨first, rest, original⟩ := List.exists_cons_of_ne_nil (lines_ne_nil body)
  have dedented := inked_trimBlankLines (dedent (commonIndentation body) (lines body))
  have inkedLine : ¬ isBlank line = true := by
    have kept : (line :: later).dropWhile isBlank = line :: later :=
      split ▸ (trimmed_trimBlankLines _).1
    exact List.dropWhile_eq_self_iff.mp kept (by simp)
  have outmost := @exists_outmost body
  change inked (valueLines body) = _ at dedented
  rw [split, original, dedent] at dedented
  rw [original, List.drop_one, List.tail_cons] at outmost
  simp only [inked, List.filter_cons, inkedLine, Bool.not_false, if_true] at dedented
  -- A first line that is not blank is the first line of the value too, and all others are dedented.
  cases blank : isBlank first with
  | false =>
      simp only [blank, Bool.not_false, if_true, List.cons.injEq] at dedented
      have present : inked later ≠ [] := by
        intro none
        simp [leastIndentation, none, least] at deeper
      obtain ⟨other, member, zero⟩ := outmost (by rw [inked, ← dedented.2]; exact present)
      rw [inked, ← dedented.2] at member
      exact absurd (leastIndentation_eq_zero member zero) (Nat.ne_of_gt deeper)
  | true =>
      simp only [blank, Bool.not_true, Bool.false_eq_true, if_false] at dedented
      obtain ⟨other, member, zero⟩ := outmost (by rw [inked, ← dedented]; simp)
      rw [inked, ← dedented] at member
      rcases List.mem_cons.mp member with rfl | member
      · exact zero
      · exact absurd (leastIndentation_eq_zero member zero) (Nat.ne_of_gt deeper)

theorem settled_valueLines (body : List Char) : Settled (valueLines body) where
  oneLine := by
    intro line member character inside
    obtain ⟨original, found, width, rfl, _⟩ := exists_of_mem_valueLines member
    exact oneLine_of_mem_lines body original found character (List.mem_of_mem_drop inside)
  trimmed := trimmed_trimBlankLines _
  outmost := by
    intro deeper line first
    cases split : valueLines body with
    | nil => simp [split] at first
    | cons head later =>
        rw [split] at deeper first
        cases Option.some.inj first
        exact outmost_valueLines split deeper

theorem dedent_zero (texts : List (List Char)) : dedent 0 texts = texts := by
  cases texts with
  | nil => rfl
  | cons line later => rw [dedent, List.map_id'' fun _ => List.drop_zero]

theorem Settled.value_unlines {texts before after : List (List Char)} (settled : Settled texts)
    (present : texts ≠ []) (blankBefore : ∀ line ∈ before, line = [])
    (blankAfter : ∀ line ∈ after, line = [])
    (level : leastIndentation ((before ++ (texts ++ after)).drop 1) = 0) :
    value (unlines (before ++ (texts ++ after))) = unlines texts := by
  have inLine : ∀ line ∈ before ++ (texts ++ after), OneLine line := by
    intro line member
    rcases List.mem_append.mp member with front | member
    · simp [blankBefore line front, OneLine]
    · rcases List.mem_append.mp member with middle | back
      · exact settled.oneLine line middle
      · simp [blankAfter line back, OneLine]
  have split := lines_unlines (by simp [present]) inLine
  rw [value_eq, valueLines, commonIndentation_eq, split, level, dedent_zero,
    trimBlankLines_append settled.trimmed present]
  · exact fun line member => by rw [blankBefore line member]; rfl
  · exact fun line member => by rw [blankAfter line member]; rfl

theorem Settled.value_printBody {texts : List (List Char)} (settled : Settled texts) :
    value (printBody (unlines texts)) = unlines texts := by
  by_cases present : texts = []
  · subst present
    decide
  obtain ⟨line, later, split⟩ := List.exists_cons_of_ne_nil present
  have common : commonIndentation (unlines texts) = leastIndentation (texts.drop 1) := by
    rw [commonIndentation_eq, lines_unlines present settled.oneLine]
  -- The line ends that re-printing adds are empty lines at both ends.
  obtain ⟨after, blankAfter, back⟩ : ∃ after : List (List Char), (∀ line ∈ after, line = []) ∧
      unlines (texts ++ after) = unlines texts ++
        (if needsLineBeforeQuotes (unlines texts) then ['\n'] else []) := by
    split
    · exact ⟨[[]], by simp, unlines_append_empty present⟩
    · exact ⟨[], by simp, by simp⟩
  have blank : ∀ line ∈ after, isBlank line = true := fun line member => by
    rw [blankAfter line member]; rfl
  by_cases deeper : 0 < leastIndentation (texts.drop 1)
  · have first := settled.outmost deeper line (by rw [split]; rfl)
    have written : printBody (unlines texts) = unlines ([[]] ++ (texts ++ after)) := by
      rw [List.singleton_append, unlines_cons _ (by simp [present]), back, printBody, common,
        if_pos deeper, List.append_assoc]
      rfl
    rw [written]
    apply settled.value_unlines present (by simp) blankAfter
    refine leastIndentation_eq_zero ?_ first
    rw [List.singleton_append, List.drop_one, List.tail_cons, (inked_append_of_blank blank).2, split]
    have kept := settled.trimmed.1
    rw [split] at kept
    have inkedLine : ¬ isBlank line = true := List.dropWhile_eq_self_iff.mp kept (by simp)
    simp [inked, inkedLine]
  · have written : printBody (unlines texts) = unlines ([] ++ (texts ++ after)) := by
      rw [List.nil_append, back, printBody, common, if_neg deeper, List.nil_append]
    rw [written]
    apply settled.value_unlines present (by simp) blankAfter
    rw [List.nil_append, split, List.cons_append, List.drop_one, List.tail_cons,
      leastIndentation_congr (inked_append_of_blank blank).2]
    rw [split] at deeper
    exact Nat.eq_zero_of_not_pos deeper

theorem value_printBody (body : List Char) : value (printBody (value body)) = value body :=
  (settled_valueLines body).value_printBody

end TypedLiterals.Graphql.BlockString
