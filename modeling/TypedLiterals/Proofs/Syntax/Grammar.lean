import TypedLiterals.Proofs.Rewrite.Exact
import TypedLiterals.Proofs.Syntax.Formation
import TypedLiterals.Proofs.Syntax.Nesting

/-!
What scripts' grammars promise of a program.

Scans are told of a grammar no more than a few rules of its trees. Besides well nested ranges these are: calls and
statements that import stand in the text, type arguments hold no calls, a call is made of tokens, type arguments and
its arguments, and what a template without substitutions covers is plain text between backticks. The trees of the
reader keep the rules wherever all that is opened in a text is closed again.
-/

namespace TypedLiterals

open Text (byteLength)

namespace Span

variable {span : Span} {text body : List Char}

/-- Whether a span covers some of a text and nothing of a leading hashbang line. -/
structure Stands (text : List Char) (span : Span) : Prop where
  within : span.Within text
  wide : span.start < span.stop
  behind : ∀ offset, HashbangEnd text offset → offset ≤ span.start

theorem length_textIn_le (span : Span) (text : List Char) : (span.textIn text).length ≤ span.stop - span.start := by
  by_cases empty : span.textIn text = []
  · rw [empty]
    exact Nat.zero_le _
  · obtain ⟨_, _, _, _, stop⟩ := exists_of_textIn empty
    have shorter := Text.length_le_byteLength (span.textIn text)
    omega

/-- What a text ends with is at the end of every stretch that reaches so far. -/
theorem getLast?_textIn (present : span.textIn text ≠ []) (ends : byteLength text ≤ span.stop) :
    (span.textIn text).getLast? = text.getLast? := by
  obtain ⟨front, back, whole, start, stop⟩ := exists_of_textIn present
  have length := congrArg byteLength whole
  rw [Text.byteLength_append, Text.byteLength_append] at length
  have none : back = [] := Text.eq_nil_of_byteLength (by omega)
  rw [none, List.append_nil] at whole
  have last := congrArg List.getLast? whole
  rw [List.getLast?_append_of_ne_nil _ present] at last
  exact last.symm

theorem textIn_between (covered : span.textIn text = '\x60' :: (body ++ ['\x60'])) :
    textIn ⟨span.start + 1, span.stop - 1⟩ text = body := by
  obtain ⟨front, back, whole, start, stop⟩ := exists_of_textIn (List.ne_nil_of_mem (covered ▸ List.mem_cons_self))
  have one : byteLength ['\x60'] = 1 := rfl
  have inner := textIn_middle (front ++ ['\x60']) body ('\x60' :: back)
  rw [covered, ← List.singleton_append, Text.byteLength_append, Text.byteLength_append, one] at stop
  rw [Text.byteLength_append, one] at inner
  have here : span.start + 1 = byteLength front + 1 := by omega
  have there : span.stop - 1 = byteLength front + 1 + byteLength body := by omega
  rw [here, there, whole, covered]
  simpa using inner

end Span

namespace Syntax

/-- The bracket that ends what nodes of a kind begin. -/
def Kind.closer? : Kind → Option Char
  | arguments | parentheses => some ')'
  | brackets => some ']'
  | braces | substitution => some '}'
  | template => some '\x60'
  | typeArguments => some '>'
  | _ => none

namespace Tree

/-- Whether all that is opened in a text is closed again. -/
def Unbroken (text : List Char) (program : Tree) : Prop :=
  ∀ tree ∈ program.all, ∀ closer ∈ tree.kind.closer?,
    2 ≤ (tree.textIn text).length ∧ (tree.textIn text).getLast? = some closer

instance (text : List Char) (program : Tree) : Decidable (Unbroken text program) :=
  -- The instance is named because another one would try every character for the closer.
  @List.decidableBAll Tree _ (fun tree => Option.decidableForallMem tree.kind.closer?) program.all

/-- Whether no type argument has a call in it. -/
def PlainTypes (program : Tree) : Prop :=
  ∀ types ∈ program.all, types.kind = .typeArguments → ∀ part ∈ types.all, part.kind ≠ .call

instance (program : Tree) : Decidable (PlainTypes program) :=
  inferInstanceAs (Decidable (∀ types ∈ program.all, types.kind = .typeArguments → ∀ part ∈ types.all, _))

/-- Whether a tree is made as an argument of a call: punctuation has no parts, and the parts of a template are
substitutions. Without these a template is plain text between backticks. -/
structure IsArgument (text : List Char) (tree : Tree) : Prop where
  bare : tree.isNamed = false → tree.children = []
  substitutions : tree.kind = .template → ∀ part ∈ tree.children, part.kind = .substitution
  plain : tree.kind = .template → tree.children = [] →
    ∃ body, tree.textIn text = '\x60' :: (body ++ ['\x60']) ∧ IsTemplateBody body

/-- Whether a call is made of tokens, type arguments and arguments, and stands in a text if it has arguments. -/
structure IsApplication (text : List Char) (call : Tree) : Prop where
  stands : (∃ part ∈ call.children, part.kind = .arguments) → call.span.Stands text
  parts : ∀ part ∈ call.children, part.children = [] ∨ part.kind = .typeArguments ∨
    (part.kind = .arguments ∧ ∀ argument ∈ part.children, argument.IsArgument text)

/-- Whether a program keeps the rules of the grammars on its text. -/
structure Grammatical (text : List Char) (program : Tree) : Prop extends program.WellNested where
  types : program.PlainTypes
  calls : ∀ call ∈ program.all, call.kind = .call → call.IsApplication text
  statements : ∀ statement ∈ program.children, statement.kind = .importStatement → statement.span.Stands text

variable {text : List Char} {tree program : Tree}

theorem Unbroken.of_mem_all (unbroken : program.Unbroken text) (member : tree ∈ program.all) : tree.Unbroken text :=
  fun part inside => unbroken part (mem_all_trans member inside)

theorem PlainTypes.of_mem_all (types : program.PlainTypes) (member : tree ∈ program.all) : tree.PlainTypes :=
  fun part inside => types part (mem_all_trans member inside)

end Tree

/-! ## Where a reader stands -/

variable {start : Cursor} {text : List Char} {span : Span} {call arguments template : Tree}

theorem Cursor.Marks.within (marks : start.Marks span) (reached : (Cursor.mk 0 text).Reaches start) :
    span.Within text := by
  obtain ⟨first, last, stood, here, rfl⟩ := marks
  obtain ⟨before, whole, begins⟩ := (reached.trans stood).exists_taken
  obtain ⟨covered, rest, ends⟩ := here.exists_taken
  dsimp only at whole begins
  rw [whole, rest]
  exact Span.within_of_parts (by dsimp only; omega) ends.symm

theorem Cursor.Marks.le_start (marks : start.Marks span) : start.offset ≤ span.start := by
  obtain ⟨first, last, stood, here, rfl⟩ := marks
  exact stood.le

theorem opening_of_hashbang (hashbang : ['#', '!'] <+: text) :
    opening text = ⟨byteLength (text.takeWhile (· ≠ '\n')), text.dropWhile (· ≠ '\n')⟩ := by
  have opens : "#!".toList.isPrefixOf text = true := List.isPrefixOf_iff_prefix.mpr hashbang
  rw [opening, if_pos opens, hashbangRest, Cursor.behind_eq, List.span_eq_takeWhile_dropWhile,
    Nat.zero_add]

theorem le_opening {offset : Nat} (ends : HashbangEnd text offset) : offset ≤ (opening text).skipSpace.offset := by
  cases ends with
  | none => exact Nat.zero_le _
  | @line line rest hashbang plain =>
      have passed := List.takeWhile_eq_self_iff.mp (HashbangEnd.takeWhile_of_notMem plain)
      rw [opening_of_hashbang (hashbang.trans (List.prefix_append _ _)), List.takeWhile_append_of_pos passed,
        List.dropWhile_append_of_pos passed, Cursor.skipSpace, Cursor.behind_eq, List.span_eq_takeWhile_dropWhile]
      have breaks : isSpace '\n' = true := by decide
      have wide := '\n'.utf8Size_pos
      simp [breaks]
      omega
  | last hashbang plain =>
      rw [opening_of_hashbang hashbang, HashbangEnd.takeWhile_of_notMem plain]
      exact Cursor.le_skipSpace ⟨byteLength text, _⟩

theorem Cursor.Marks.stands (marks : (opening text).skipSpace.Marks span) (wide : span.start < span.stop) :
    span.Stands text where
  within := marks.within (reaches_opening text)
  wide := wide
  behind _ ends := Nat.le_trans (le_opening ends) marks.le_start

/-! ## Templates -/

/-- A plain template is closed, goes on to the end of the text, or was not read on. -/
theorem TemplateSound.cases (sound : TemplateSound start template) (none : template.children = [])
    (reached : (Cursor.mk 0 text).Reaches start) :
    (∃ body, template.textIn text = '\x60' :: (body ++ ['\x60']) ∧ IsTemplateBody body) ∨
      template.span.stop = byteLength text ∨ template.span.stop = template.span.start + 1 := by
  obtain ⟨first, after, stood, here, span, opens, closes⟩ := sound.plain none
  obtain ⟨before, whole, begins⟩ := (reached.trans stood).exists_taken
  dsimp only at whole begins
  obtain ⟨rest, firstRest⟩ : ∃ rest, first.rest = '\x60' :: rest := by
    cases same : first.rest with
    | nil => simp [same] at opens
    | cons character rest =>
        rw [same, List.head?_cons, Option.some.injEq] at opens
        exact ⟨rest, by rw [opens]⟩
  have skipped : first.skip 1 = ⟨first.offset + 1, rest⟩ := by
    rw [Cursor.skip, Cursor.behind_eq, firstRest, List.splitAt_eq]
    rfl
  rw [skipped] at here closes
  obtain ⟨taken, passed, ends⟩ := here.exists_taken
  have one : byteLength ['\x60'] = 1 := rfl
  dsimp only at passed ends
  rcases closes with ⟨body, isBody, inside⟩ | atEnd | stays
  · dsimp only at inside
    obtain rfl : taken = body ++ ['\x60'] := List.append_cancel_right (by rw [← passed, inside]; simp)
    refine .inl ⟨body, ?_, isBody⟩
    have covered := Span.textIn_middle before (['\x60'] ++ (body ++ ['\x60'])) after.rest
    rw [Text.byteLength_append, one] at covered
    have place : template.span = ⟨byteLength before, byteLength before + (1 + byteLength (body ++ ['\x60']))⟩ := by
      rw [span, Span.mk.injEq]
      exact ⟨by omega, by omega⟩
    rw [Tree.textIn, place, whole, firstRest, inside]
    simpa using covered
  · refine .inr (.inl ?_)
    rw [span, whole, firstRest, passed, atEnd, List.append_nil, ← List.singleton_append, Text.byteLength_append,
      Text.byteLength_append, one]
    dsimp only
    omega
  · refine .inr (.inr ?_)
    rw [span, stays]

/-- Where all is closed, a plain template among the arguments of a call stands between backticks. -/
theorem TemplateSound.exists_body (sound : TemplateSound start template) (none : template.children = [])
    (isTemplate : template.kind = .template) (member : template ∈ arguments.children)
    (isArguments : arguments.kind = .arguments) (laid : arguments.Laid) (reached : (Cursor.mk 0 text).Reaches start)
    (unbroken : arguments.Unbroken text) :
    ∃ body, template.textIn text = '\x60' :: (body ++ ['\x60']) ∧ IsTemplateBody body := by
  have inside := Tree.mem_all_of_mem_children member template.mem_all_self
  obtain ⟨long, closing⟩ := unbroken template inside '\x60' (by rw [isTemplate]; exact rfl)
  obtain ⟨alsoLong, parenthesis⟩ := unbroken arguments arguments.mem_all_self ')' (by rw [isArguments]; exact rfl)
  rcases sound.cases none reached with closed | atEnd | short
  · exact closed
  · -- A template that goes on to the end of the text takes the closing parenthesis of the call.
    exfalso
    have present : ∀ {tree : Tree}, 2 ≤ (tree.textIn text).length → tree.span.textIn text ≠ [] :=
      fun long => List.ne_nil_of_length_pos (Nat.lt_of_lt_of_le Nat.two_pos long)
    have behind := (laid.of_mem_all inside).2.2
    have last := Span.getLast?_textIn (present long) atEnd.ge
    have same := Span.getLast?_textIn (present alsoLong) (atEnd ▸ behind)
    rw [← last] at same
    exact absurd (parenthesis.symm.trans (same.trans closing)) (by decide)
  · exfalso
    have most := Span.length_textIn_le template.span text
    have least : 2 ≤ (template.span.textIn text).length := long
    omega

/-! ## The reader -/

theorem CallSound.isApplication (sound : CallSound (opening text).skipSpace call) (laid : call.Laid)
    (unbroken : call.Unbroken text) : call.IsApplication text where
  stands := by
    rintro ⟨part, listed, kind⟩
    have inside := Tree.mem_all_of_mem_children listed part.mem_all_self
    obtain ⟨_, begins, ends⟩ := laid.of_mem_all inside
    have long : 2 ≤ (part.span.textIn text).length := (unbroken part inside ')' (by rw [kind]; exact rfl)).1
    have most := Span.length_textIn_le part.span text
    exact (sound.marks ⟨part, listed, kind⟩).stands (by omega)
  parts part listed := by
    refine (sound.parts part listed).imp_right (Or.imp_right fun ⟨kind, arguments⟩ => ⟨kind, fun argument member => ?_⟩)
    have inside := Tree.mem_all_of_mem_children listed part.mem_all_self
    have argumentSound := arguments argument member
    refine ⟨argumentSound.bare, fun isTemplate => (argumentSound.template isTemplate).substitutions,
      fun isTemplate none => ?_⟩
    exact (argumentSound.template isTemplate).exists_body none isTemplate member kind (laid.of_mem_all inside).1
      (reaches_opening text) (unbroken.of_mem_all inside)

/-- The reader keeps the rules of the grammars on every text in which all is closed. -/
theorem grammatical_parse (dialect : Dialect) (text : List Char) (unbroken : (parse dialect text).Unbroken text)
    (types : (parse dialect text).PlainTypes) : (parse dialect text).Grammatical text where
  toWellNested := wellNested_parse dialect text
  types := types
  calls call member kind := by
    have sound : CallSound (opening text).skipSpace call := by
      rcases Tree.eq_or_exists_child member with rfl | ⟨child, listed, inside⟩
      · cases kind
      · exact (sound_parse dialect text child listed).calls call inside kind
    exact sound.isApplication ((laid_parse dialect text).of_mem_all member).1 (unbroken.of_mem_all member)
  statements statement listed kind :=
    have ⟨marks, wide⟩ := (sound_parse dialect text statement listed).statement kind
    marks.stands wide

end Syntax

end TypedLiterals
