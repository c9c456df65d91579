import TypedLiterals.Proofs.Graphql.Reprint

/-!
Block strings told apart by their value.

The value of a block string is described without the way it is computed: lines end at line feeds, carriage returns
and pairs of both, the common indentation is as wide as every line allows, and blank lines at both ends do not
count. Two block strings are re-printed alike exactly when they have one value.
-/

namespace TypedLiterals.Graphql.BlockString

variable {token other body text line blanks rest after : List Char} {later texts : List (List Char)} {width : Nat}
  {character : Char}

/-! ## Lines of a body -/

/-- The lines of a text and how they end. -/
inductive Lined : List Char → List (List Char) → Prop
  | last {line : List Char} : OneLine line → Lined line [line]
  | feed {line rest : List Char} {later : List (List Char)} :
      OneLine line → Lined rest later → Lined (line ++ '\n' :: rest) (line :: later)
  | both {line rest : List Char} {later : List (List Char)} :
      OneLine line → Lined rest later → Lined (line ++ '\r' :: '\n' :: rest) (line :: later)
  | carriage {line rest : List Char} {later : List (List Char)} :
      OneLine line → rest.head? ≠ some '\n' → Lined rest later → Lined (line ++ '\r' :: rest) (line :: later)

theorem lines_append (inLine : OneLine line) (text : List Char) :
    lines (line ++ text) = (line ++ (lines text).headD []) :: (lines text).tail := by
  induction line with
  | nil =>
      obtain ⟨first, later, split⟩ := List.exists_cons_of_ne_nil (lines_ne_nil text)
      rw [List.nil_append, split]
      rfl
  | cons character rest ih =>
      obtain ⟨first, later, split, joined⟩ := lines_cons (rest ++ text) (inLine character List.mem_cons_self)
      rw [ih fun other member => inLine other (List.mem_cons_of_mem _ member), List.cons.injEq] at split
      obtain ⟨rfl, rfl⟩ := split
      exact joined

theorem lines_feed (rest : List Char) : lines ('\n' :: rest) = [] :: lines rest := by
  rw [lines] <;> simp [isLineEnd]

theorem lines_both (rest : List Char) : lines ('\r' :: '\n' :: rest) = [] :: lines rest := by
  rw [lines]

theorem lines_carriage (alone : rest.head? ≠ some '\n') : lines ('\r' :: rest) = [] :: lines rest := by
  rw [lines]
  · simp [isLineEnd]
  · rintro next _ rfl
    exact alone rfl

theorem Lined.lines_eq (lined : Lined body texts) : lines body = texts := by
  induction lined with
  | last inLine => exact lines_of_oneLine inLine
  | feed inLine _ ih => rw [lines_append_newline inLine, ih]
  | both inLine _ ih => rw [lines_append inLine, lines_both, ih, List.headD_cons, List.append_nil, List.tail_cons]
  | carriage inLine alone _ ih =>
      rw [lines_append inLine, lines_carriage alone, ih, List.headD_cons, List.append_nil, List.tail_cons]

theorem Lined.cons (lined : Lined rest (line :: later)) (plain : isLineEnd character = false) :
    Lined (character :: rest) ((character :: line) :: later) := by
  have inLine : ∀ {line}, OneLine line → OneLine (character :: line) := fun inLine =>
    List.forall_mem_cons.mpr ⟨plain, inLine⟩
  cases lined with
  | last first => exact .last (inLine first)
  | feed first behind => exact .feed (inLine first) behind
  | both first behind => exact .both (inLine first) behind
  | carriage first alone behind => exact .carriage (inLine first) alone behind

theorem lined_lines (body : List Char) : Lined body (lines body) := by
  fun_induction lines body with
  | case1 => exact .last nofun
  | case2 rest ih => exact @Lined.both [] rest _ nofun ih
  | case3 character rest alone lineEnd ih =>
      rcases (by simpa [isLineEnd] using lineEnd : character = '\n' ∨ character = '\r') with rfl | rfl
      · exact @Lined.feed [] rest _ nofun ih
      · refine @Lined.carriage [] rest _ nofun (fun newline => ?_) ih
        obtain ⟨next, rfl⟩ := List.head?_eq_some_iff.mp newline
        exact alone next rfl rfl
  | case4 character rest alone plain none ih => exact absurd none (lines_ne_nil rest)
  | case5 character rest alone plain line later split ih =>
      exact (split ▸ ih).cons (by simpa using plain)

/-! ## Common indentation -/

/-- Whether a line begins with so many blanks. -/
def BeginsBlank (width : Nat) (line : List Char) : Prop :=
  ∃ blanks rest, line = blanks ++ rest ∧ blanks.length = width ∧
    ∀ character ∈ blanks, isBlankCharacter character = true

/-- Whether a line holds anything but blanks. -/
def Inked (line : List Char) : Prop :=
  ∃ character ∈ line, isBlankCharacter character = false

/-- The most blanks that all lines begin with that hold anything else, none if there is no such line. -/
structure CommonIndent (texts : List (List Char)) (width : Nat) : Prop where
  shared : ∀ line ∈ texts, Inked line → BeginsBlank width line
  reached : (∃ line ∈ texts, Inked line ∧ ¬ BeginsBlank (width + 1) line) ∨
    (∀ line ∈ texts, ¬ Inked line) ∧ width = 0

theorem isBlank_eq_false_iff : isBlank line = false ↔ Inked line := by
  rw [isBlank, List.all_eq_false]
  simp only [Bool.not_eq_true, Inked]

theorem isBlank_eq_true_iff : isBlank line = true ↔ ¬ Inked line := by
  rw [← isBlank_eq_false_iff, Bool.not_eq_false]

theorem beginsBlank_iff : BeginsBlank width line ↔ width ≤ indentation line := by
  constructor
  · rintro ⟨blanks, rest, rfl, rfl, blank⟩
    rw [indentation, List.takeWhile_append_of_pos blank, List.length_append]
    exact Nat.le_add_right _ _
  · intro fits
    refine ⟨line.take width, line.drop width, (List.take_append_drop _ _).symm, ?_,
      isBlankCharacter_of_mem_take (.inr fits)⟩
    exact List.length_take_of_le (fits.trans (List.takeWhile_prefix _).length_le)

theorem commonIndent_leastIndentation (texts : List (List Char)) :
    CommonIndent texts (leastIndentation texts) where
  shared := fun line member inked => beginsBlank_iff.mpr (least_le (List.mem_map_of_mem
    (List.mem_filter.mpr ⟨member, by rw [isBlank_eq_false_iff.mpr inked]; rfl⟩)))
  reached := by
    by_cases none : inked texts = []
    · refine .inr ⟨fun line member holds => ?_, by rw [leastIndentation, none]; rfl⟩
      have blank := List.filter_eq_nil_iff.mp none line member
      rw [isBlank_eq_false_iff.mpr holds] at blank
      exact blank rfl
    · have depths : (inked texts).map indentation ≠ [] := by simpa using none
      obtain ⟨line, member, least⟩ := List.mem_map.mp (least_mem depths)
      obtain ⟨member, holds⟩ := List.mem_filter.mp member
      refine .inl ⟨line, member, isBlank_eq_false_iff.mp (by simpa using holds), ?_⟩
      rw [beginsBlank_iff, leastIndentation, ← least]
      exact Nat.not_succ_le_self _

theorem CommonIndent.eq_leastIndentation (common : CommonIndent texts width) : width = leastIndentation texts := by
  have known := commonIndent_leastIndentation texts
  obtain ⟨line, member, inked, wider⟩ | ⟨none, rfl⟩ := common.reached
  · obtain ⟨other, otherMember, otherInked, otherWider⟩ | ⟨empty, _⟩ := known.reached
    · have first := beginsBlank_iff.mp (known.shared line member inked)
      have second := beginsBlank_iff.mp (common.shared other otherMember otherInked)
      rw [beginsBlank_iff] at wider otherWider
      omega
    · exact absurd inked (empty line member)
  · obtain ⟨other, otherMember, otherInked, _⟩ | ⟨_, zero⟩ := known.reached
    · exact absurd otherInked (none other otherMember)
    · exact zero.symm

/-! ## Values -/

/-- The value of a block string with some body: its lines, all but the first without the common indentation, from
the first to the last that holds anything but blanks, joined by line feeds. -/
inductive HasValue : List Char → List Char → Prop
  | intro {body first : List Char} {later front kept back : List (List Char)} {width : Nat} :
      Lined body (first :: later) → CommonIndent later width →
      first :: later.map (List.drop width) = front ++ (kept ++ back) →
      (∀ line ∈ front ++ back, ¬ Inked line) → (∀ line ∈ kept.head?, Inked line) →
      (∀ line ∈ kept.getLast?, Inked line) → HasValue body (List.intercalate ['\n'] kept)

theorem trimBlankLines_of_blank (blank : ∀ line ∈ texts, isBlank line = true) : trimBlankLines texts = [] := by
  rw [trimBlankLines_eq, List.dropWhile_eq_nil_iff.mpr blank]
  rfl

theorem dropWhile_isBlank_iff :
    texts.dropWhile isBlank = texts ↔ ∀ line ∈ texts.head?, Inked line := by
  cases texts with
  | nil => simp
  | cons line later =>
      rw [List.dropWhile_eq_self_iff]
      simp [← isBlank_eq_false_iff]

theorem trimmed_iff : Trimmed texts ↔
    (∀ line ∈ texts.head?, Inked line) ∧ ∀ line ∈ texts.getLast?, Inked line := by
  rw [Trimmed, dropWhile_isBlank_iff, List.rdropWhile, List.reverse_eq_iff, dropWhile_isBlank_iff,
    List.head?_reverse]

theorem exists_ends (texts : List (List Char)) : ∃ front back, texts = front ++ (trimBlankLines texts ++ back) ∧
    ∀ line ∈ front ++ back, isBlank line = true := by
  refine ⟨texts.takeWhile isBlank, (texts.dropWhile isBlank).rtakeWhile isBlank, ?_, List.forall_mem_append.mpr
    ⟨fun line member => List.mem_takeWhile_imp member, fun line member => List.mem_rtakeWhile_imp member⟩⟩
  rw [trimBlankLines_eq, List.rdropWhile_append_rtakeWhile, List.takeWhile_append_dropWhile]

theorem hasValue_iff : HasValue body text ↔ value body = text := by
  constructor
  · rintro @⟨first, later, front, kept, back, width, lined, common, split, blank, head, last⟩
    have blank : ∀ line ∈ front ++ back, isBlank line = true := fun line member =>
      isBlank_eq_true_iff.mpr (blank line member)
    obtain ⟨blankFront, blankBack⟩ := List.forall_mem_append.mp blank
    rw [value, commonIndentation_eq, lined.lines_eq, List.drop_one, List.tail_cons, ← common.eq_leastIndentation,
      dedent, split]
    congr 1
    by_cases present : kept = []
    · rw [present, List.nil_append]
      exact trimBlankLines_of_blank blank
    · exact trimBlankLines_append (trimmed_iff.mpr ⟨head, last⟩) present blankFront blankBack
  · rintro rfl
    obtain ⟨first, later, split⟩ := List.exists_cons_of_ne_nil (lines_ne_nil body)
    have lined : Lined body (first :: later) := split ▸ lined_lines body
    obtain ⟨front, back, parts, blank⟩ :=
      exists_ends (first :: later.map (List.drop (leastIndentation later)))
    obtain ⟨head, last⟩ := trimmed_iff.mp (trimmed_trimBlankLines _)
    rw [value, commonIndentation_eq, split]
    exact .intro lined (commonIndent_leastIndentation later) parts
      (fun line member => isBlank_eq_true_iff.mp (blank line member)) head last

/-! ## Tokens -/

/-- Whether a token is a block string that closing quotes end before what follows it in some text. -/
def Terminated (token : List Char) : Prop :=
  ∃ rest next after, token = '\x22' :: '\x22' :: '\x22' :: rest ∧
    stringRest ('\x22' :: '\x22' :: rest ++ next :: after) = ('\x22' :: '\x22' :: rest, next :: after)

/-- Whether a token is a block string with some value. -/
def Denotes (token text : List Char) : Prop :=
  ∃ body, token = quote body ∧ HasValue body text

theorem exists_validBody_of_blockStringRest {rest : List Char}
    (read : blockStringRest text = (rest, after)) (more : after ≠ []) :
    ∃ body, ValidBody body ∧ rest = body ++ tripleQuote := by
  fun_induction blockStringRest text generalizing rest with
  | case1 next ih =>
      obtain ⟨rfl, rfl⟩ := Prod.mk.inj read
      obtain ⟨body, valid, same⟩ := ih rfl
      exact ⟨escapedTripleQuote ++ body, .escape valid, by rw [same]; rfl⟩
  | case2 next =>
      obtain ⟨rfl, rfl⟩ := Prod.mk.inj read
      exact ⟨[], .nil, rfl⟩
  | case3 character next noEscape noQuotes ih =>
      obtain ⟨rfl, rfl⟩ := Prod.mk.inj read
      obtain ⟨body, valid, same⟩ := ih rfl
      have within : character :: body ++ tripleQuote <+: character :: next := by
        refine ⟨(blockStringRest next).2, ?_⟩
        rw [List.cons_append, ← same, List.cons_append, blockStringRest_append]
      refine ⟨character :: body, .plain (fun begins => ?_) (fun begins => ?_) valid, by rw [same]; rfl⟩
      · obtain ⟨later, whole⟩ := begins.trans within
        cases whole
        exact noQuotes later rfl rfl
      · obtain ⟨later, whole⟩ := begins.trans within
        cases whole
        exact noEscape later rfl rfl
  | case4 =>
      obtain ⟨rfl, rfl⟩ := Prod.mk.inj read
      exact absurd rfl more

theorem ValidBody.stringRest (valid : ValidBody body) (after : List Char) :
    Graphql.stringRest ('\x22' :: '\x22' :: (body ++ tripleQuote) ++ after) =
      ('\x22' :: '\x22' :: (body ++ tripleQuote), after) := by
  rw [List.cons_append, List.cons_append, Graphql.stringRest, List.append_assoc, valid.blockStringRest]

theorem quote_injective (same : quote body = quote other) : body = other := by
  have bodies := body?_quote body
  rw [same, body?_quote] at bodies
  exact (Option.some.inj bodies).symm

/-- The block strings that are read as such are those with a valid body. -/
theorem terminated_iff : Terminated token ↔ ∃ body, ValidBody body ∧ token = quote body := by
  constructor
  · rintro ⟨rest, next, after, rfl, read⟩
    rw [List.cons_append, List.cons_append, stringRest, Prod.mk.injEq, List.cons.injEq, List.cons.injEq] at read
    obtain ⟨⟨_, _, first⟩, second⟩ := read
    obtain ⟨body, valid, rfl⟩ := exists_validBody_of_blockStringRest (Prod.ext first second)
      (List.cons_ne_nil next after)
    exact ⟨body, valid, rfl⟩
  · rintro ⟨body, valid, rfl⟩
    exact ⟨body ++ tripleQuote, ' ', [], rfl, valid.stringRest _⟩

/-! ## Lines that are moved to the right -/

/-- A body with blanks put before every line but the first. -/
def indentLater (blanks : List Char) : List Char → List Char
  | [] => []
  | '\r' :: '\n' :: rest => '\r' :: '\n' :: (blanks ++ indentLater blanks rest)
  | character :: rest =>
    if isLineEnd character then character :: (blanks ++ indentLater blanks rest)
    else character :: indentLater blanks rest

theorem indentLater_plain (plain : isLineEnd character = false) :
    indentLater blanks (character :: text) = character :: indentLater blanks text := by
  rw [indentLater]
  · simp [plain]
  · rintro rest rfl
    exact absurd plain (by decide)

/-- Blanks are put behind a line end, or behind the line feed that goes with it. -/
theorem indentLater_lineEnd (blanks text : List Char) (lineEnd : isLineEnd character = true) :
    indentLater blanks (character :: text) = character :: (blanks ++ indentLater blanks text) ∨
      indentLater blanks (character :: text) = character :: indentLater blanks text := by
  by_cases double : ∃ rest, character = '\r' ∧ text = '\n' :: rest
  · obtain ⟨rest, rfl, rfl⟩ := double
    have feed : indentLater blanks ('\n' :: rest) = '\n' :: (blanks ++ indentLater blanks rest) := by
      rw [indentLater] <;> simp [isLineEnd]
    exact .inr (by rw [feed, indentLater])
  · left
    rw [indentLater]
    · simp [lineEnd]
    · exact fun rest carriage newline => double ⟨rest, carriage, newline⟩

theorem head?_indentLater (blanks text : List Char) : (indentLater blanks text).head? = text.head? := by
  fun_cases indentLater blanks text <;> rfl

/-- A pattern without line ends that begins a text with blanks put in begins the text without them. -/
theorem prefix_of_prefix_indentLater {pattern : List Char} (inLine : OneLine pattern)
    (begins : pattern <+: indentLater blanks text ++ after) : pattern <+: text ++ after := by
  fun_induction indentLater blanks text generalizing pattern with
  | case1 => exact begins
  | case2 rest ih =>
      cases pattern with
      | nil => exact List.nil_prefix
      | cons first pattern =>
          obtain ⟨rfl, _⟩ := List.cons_prefix_cons.mp begins
          exact absurd (inLine _ List.mem_cons_self) (by decide)
  | case3 character rest _ lineEnd ih =>
      cases pattern with
      | nil => exact List.nil_prefix
      | cons first pattern =>
          obtain ⟨rfl, _⟩ := List.cons_prefix_cons.mp begins
          exact absurd (inLine _ List.mem_cons_self) (by simp [lineEnd])
  | case4 character rest _ plain ih =>
      cases pattern with
      | nil => exact List.nil_prefix
      | cons first pattern =>
          obtain ⟨rfl, later⟩ := List.cons_prefix_cons.mp begins
          exact List.cons_prefix_cons.mpr ⟨rfl, ih (List.forall_mem_cons.mp inLine).2 later⟩

theorem trimBlankLines_cons_of_blank {first : List Char} (blank : ∀ line ∈ later, isBlank line = true) :
    trimBlankLines (first :: later) = trimBlankLines [first] := by
  cases kind : isBlank first with
  | true =>
      rw [trimBlankLines_of_blank (List.forall_mem_cons.mpr ⟨kind, blank⟩),
        trimBlankLines_of_blank (List.forall_mem_singleton.mpr kind)]
  | false =>
      have trimmed : Trimmed [first] := trimmed_iff.mpr (by simp [isBlank_eq_false_iff.mp kind])
      have present := List.cons_ne_nil first []
      exact (@trimBlankLines_append [] [first] later trimmed present nofun blank).trans
        (@trimBlankLines_append [] [first] [] trimmed present nofun nofun).symm

theorem leastIndentation_of_blank (blank : ∀ line ∈ texts, isBlank line = true) : leastIndentation texts = 0 := by
  have none : inked texts = [] := List.filter_eq_nil_iff.mpr fun line member => by simp [blank line member]
  rw [leastIndentation, none]
  rfl

section

variable (blank : ∀ character ∈ blanks, isBlankCharacter character = true)
include blank

theorem isLineEnd_of_blank : OneLine blanks := fun character member => by
  rcases (by simpa [isBlankCharacter] using blank character member : character = ' ' ∨ character = '\t')
    with rfl | rfl <;> rfl

theorem lines_indentLater (body : List Char) :
    lines (indentLater blanks body) = (lines body).headD [] :: (lines body).tail.map (blanks ++ ·) := by
  have moved : ∀ rest,
      lines (indentLater blanks rest) = (lines rest).headD [] :: (lines rest).tail.map (blanks ++ ·) →
      lines (blanks ++ indentLater blanks rest) = (lines rest).map (blanks ++ ·) := by
    intro rest ih
    obtain ⟨first, later, split⟩ := List.exists_cons_of_ne_nil (lines_ne_nil rest)
    rw [lines_append (isLineEnd_of_blank blank), ih, split]
    rfl
  fun_induction indentLater blanks body with
  | case1 => rfl
  | case2 rest ih => rw [lines_both, lines_both, moved rest ih, List.headD_cons, List.tail_cons]
  | case3 character rest alone lineEnd ih =>
      rcases (by simpa [isLineEnd] using lineEnd : character = '\n' ∨ character = '\r') with rfl | rfl
      · rw [lines_feed, lines_feed, moved rest ih, List.headD_cons, List.tail_cons]
      · have aloneRest : rest.head? ≠ some '\n' := fun newline => by
          obtain ⟨next, rfl⟩ := List.head?_eq_some_iff.mp newline
          exact alone next rfl rfl
        have aloneMoved : (blanks ++ indentLater blanks rest).head? ≠ some '\n' := by
          cases blanks with
          | nil => rwa [List.nil_append, head?_indentLater]
          | cons first blanks =>
              rintro ⟨⟩
              exact absurd (blank '\n' List.mem_cons_self) (by decide)
        rw [lines_carriage aloneRest, lines_carriage aloneMoved, moved rest ih, List.headD_cons, List.tail_cons]
  | case4 character rest alone plain ih =>
      obtain ⟨first, later, split, joined⟩ := lines_cons rest (by simpa using plain)
      obtain ⟨firstMoved, laterMoved, splitMoved, joinedMoved⟩ :=
        lines_cons (indentLater blanks rest) (by simpa using plain)
      rw [splitMoved, split, List.headD_cons, List.tail_cons, List.cons.injEq] at ih
      obtain ⟨rfl, rfl⟩ := ih
      rw [joined, joinedMoved, List.headD_cons, List.tail_cons]

theorem inked_append : Inked (blanks ++ line) ↔ Inked line := by
  constructor
  · rintro ⟨character, member, inks⟩
    rcases List.mem_append.mp member with ahead | behind
    · rw [blank character ahead] at inks
      cases inks
    · exact ⟨character, behind, inks⟩
  · rintro ⟨character, member, inks⟩
    exact ⟨character, List.mem_append_right _ member, inks⟩

theorem indentation_append : indentation (blanks ++ line) = blanks.length + indentation line := by
  rw [indentation, List.takeWhile_append_of_pos blank, List.length_append]
  rfl

theorem CommonIndent.append (common : CommonIndent texts width) (present : ∃ line ∈ texts, Inked line) :
    CommonIndent (texts.map (blanks ++ ·)) (blanks.length + width) where
  shared := by
    intro moved member inks
    obtain ⟨line, inside, rfl⟩ := List.mem_map.mp member
    rw [beginsBlank_iff, indentation_append blank]
    exact Nat.add_le_add_left (beginsBlank_iff.mp (common.shared line inside ((inked_append blank).mp inks))) _
  reached := by
    obtain ⟨line, member, inks, wider⟩ | ⟨none, _⟩ := common.reached
    · refine .inl ⟨_, List.mem_map_of_mem member, (inked_append blank).mpr inks, ?_⟩
      rw [beginsBlank_iff] at wider ⊢
      rw [indentation_append blank]
      omega
    · obtain ⟨line, member, inks⟩ := present
      exact absurd inks (none line member)

theorem value_indentLater (body : List Char) : value (indentLater blanks body) = value body := by
  obtain ⟨first, later, split⟩ := List.exists_cons_of_ne_nil (lines_ne_nil body)
  have moved := lines_indentLater blank body
  rw [split, List.headD_cons, List.tail_cons] at moved
  rw [value, value, commonIndentation_eq, commonIndentation_eq, moved, split, List.drop_one, List.drop_one,
    List.tail_cons, List.tail_cons]
  by_cases present : ∃ line ∈ later, Inked line
  · have common := ((commonIndent_leastIndentation later).append blank present).eq_leastIndentation
    rw [← common, dedent, dedent, List.map_map]
    congr 3
    exact List.map_congr_left fun line _ => by simp
  · have none : ∀ line ∈ later, isBlank line = true := fun line member =>
      isBlank_eq_true_iff.mpr fun inks => present ⟨line, member, inks⟩
    have noneMoved : ∀ line ∈ later.map (blanks ++ ·), isBlank line = true := by
      intro line member
      obtain ⟨original, inside, rfl⟩ := List.mem_map.mp member
      rw [isBlank_eq_true_iff, inked_append blank]
      exact isBlank_eq_true_iff.mp (none original inside)
    rw [leastIndentation_of_blank none, leastIndentation_of_blank noneMoved, dedent_zero, dedent_zero,
      trimBlankLines_cons_of_blank none, trimBlankLines_cons_of_blank noneMoved]

theorem Unclosed.blanks_append (unclosed : Unclosed after text) : Unclosed after (blanks ++ text) := by
  induction blanks with
  | nil => exact unclosed
  | cons first blanks ih =>
      obtain ⟨firstBlank, blank⟩ := List.forall_mem_cons.mp blank
      refine unclosed_cons ?_ ?_ (ih blank) <;> rintro rfl <;> exact absurd firstBlank (by decide)

/-- Blanks at the beginning of lines neither open nor close anything. -/
theorem Unclosed.indentLater (unclosed : Unclosed after text) :
    Unclosed after (BlockString.indentLater blanks text) := by
  induction unclosed with
  | nil => exact .nil
  | escape _ ih => exact .escape ih
  | @plain character rest noQuotes noEscape _ ih =>
      cases kind : isLineEnd character with
      | false =>
          rw [indentLater_plain kind]
          refine .plain (fun begins => noQuotes ?_) (fun begins => noEscape ?_) ih
          · rw [← indentLater_plain kind] at begins
            exact prefix_of_prefix_indentLater (by simp [OneLine, isLineEnd, tripleQuote]) begins
          · rw [← indentLater_plain kind] at begins
            exact prefix_of_prefix_indentLater (by simp [OneLine, isLineEnd, escapedTripleQuote, tripleQuote]) begins
      | true =>
          have noQuote : character ≠ '\x22' ∧ character ≠ '\\' := by
            constructor <;> rintro rfl <;> exact absurd kind (by decide)
          rcases indentLater_lineEnd blanks rest kind with same | same
          · rw [same]
            exact unclosed_cons noQuote.1 noQuote.2 (ih.blanks_append blank)
          · rw [same]
            exact unclosed_cons noQuote.1 noQuote.2 ih

end

end BlockString

open BlockString

/-- Re-printing a block string gives a token that is read alone, has the same value and is re-printed as it is.
Two block strings are re-printed alike when they have one value, so blanks before all lines but the first do not
count. -/
theorem reprint_blockString_value {token other : List Char} (terminated : Terminated token)
    (also : Terminated other) :
    (∃ rest, reprint token = '\x22' :: rest ∧ ∀ after, stringRest (rest ++ after) = (rest, after)) ∧
    (∃ body printed, body? token = some body ∧ body? (reprint token) = some printed ∧
      value printed = value body) ∧
    reprint (reprint token) = reprint token ∧
    (reprint token = reprint other ↔ ∃ text, Denotes token text ∧ Denotes other text) ∧
    ∀ body blanks, token = quote body → (∀ character ∈ blanks, isBlankCharacter character = true) →
      Terminated (quote (indentLater blanks body)) ∧ reprint (quote (indentLater blanks body)) = reprint token := by
  obtain ⟨body, valid, rfl⟩ := terminated_iff.mp terminated
  obtain ⟨otherBody, otherValid, rfl⟩ := terminated_iff.mp also
  have printed := valid.unclosed_value.validBody_printBody
  refine ⟨⟨_, by rw [reprint_quote]; rfl, printed.stringRest⟩,
    ⟨body, printBody (value body), body?_quote body, ?_, value_printBody body⟩, ?_, ⟨fun same => ?_, ?_⟩, fun original blanks same blank => ?_⟩
  · rw [reprint_quote, body?_quote]
  · rw [reprint_quote, reprint_quote, value_printBody]
  · refine ⟨value body, ⟨body, rfl, hasValue_iff.mpr rfl⟩, otherBody, rfl, hasValue_iff.mpr ?_⟩
    rw [reprint_quote, reprint_quote] at same
    rw [← value_printBody otherBody, ← quote_injective same, value_printBody]
  · rintro ⟨text, ⟨_, first, has⟩, _, second, alsoHas⟩
    obtain rfl := quote_injective first
    obtain rfl := quote_injective second
    rw [reprint_quote, reprint_quote, hasValue_iff.mp has, hasValue_iff.mp alsoHas]
  · obtain rfl := quote_injective same
    refine ⟨terminated_iff.mpr ⟨_, Unclosed.indentLater blank valid, rfl⟩, ?_⟩
    rw [reprint_quote, reprint_quote, value_indentLater blank]

theorem reprint_blockString_value_indented :
    reprint (quote "\n    a\n      b\n  ".toList) = reprint (quote "\r\n\ta\r\n\t  b".toList) := by
  have first : Terminated (quote "\n    a\n      b\n  ".toList) :=
    ⟨"\n    a\n      b\n  \x22\x22\x22".toList, ' ', [], by decide, by decide⟩
  have second : Terminated (quote "\r\n\ta\r\n\t  b".toList) :=
    ⟨"\r\n\ta\r\n\t  b\x22\x22\x22".toList, ' ', [], by decide, by decide⟩
  exact (reprint_blockString_value first second).2.2.2.1.mpr ⟨"a\n  b".toList,
    ⟨_, rfl, hasValue_iff.mpr (by decide)⟩, _, rfl, hasValue_iff.mpr (by decide)⟩

end TypedLiterals.Graphql
