import TypedLiterals.Proofs.Syntax.Reach

/-!
What calls and templates are made of.

A call is an identifier with comments, type arguments and arguments behind it. What stands in its arguments
without being named has no parts, and a template has no parts but its substitutions; without these it is plain
text up to the backtick that closes it.
-/

namespace TypedLiterals.Syntax

open Cursor (Reaches)

/-- Whether a span begins and ends where a reader stands that has come from a cursor. -/
def Cursor.Marks (start : Cursor) (span : Span) : Prop :=
  ∃ first last, start.Reaches first ∧ first.Reaches last ∧ span = ⟨first.offset, last.offset⟩

/-- How plain text goes on from the opening backtick of a template: up to the closing one, to the end of the text,
or not at all. -/
def Closes (cursor after : Cursor) : Prop :=
  (∃ body, IsTemplateBody body ∧ cursor.rest = body ++ '\x60' :: after.rest) ∨ after.rest = [] ∨ after = cursor

structure TemplateSound (start : Cursor) (template : Tree) : Prop where
  substitutions : ∀ child ∈ template.children, child.kind = .substitution
  plain : template.children = [] → ∃ first after, start.Reaches first ∧ (first.skip 1).Reaches after ∧
    template.span = ⟨first.offset, after.offset⟩ ∧ first.rest.head? = some '\x60' ∧ Closes (first.skip 1) after

/-- Whether a tree can be an argument. -/
structure ArgumentSound (start : Cursor) (tree : Tree) : Prop where
  bare : tree.isNamed = false → tree.children = []
  template : tree.kind = .template → TemplateSound start tree

structure CallSound (start : Cursor) (call : Tree) : Prop where
  marks : (∃ part ∈ call.children, part.kind = .arguments) → start.Marks call.span
  parts : ∀ part ∈ call.children, part.children = [] ∨ part.kind = .typeArguments ∨
    (part.kind = .arguments ∧ ∀ argument ∈ part.children, ArgumentSound start argument)

namespace Tree

/-- Whether a tree that was read from a cursor on, and all calls in it, are made as they should be. -/
structure Sound (start : Cursor) (tree : Tree) : Prop extends ArgumentSound start tree where
  calls : ∀ call ∈ tree.all, call.kind = .call → CallSound start call
  statement : tree.kind = .importStatement → start.Marks tree.span ∧ tree.span.start < tree.span.stop

variable {start : Cursor} {kind : Kind} {role : Option Role} {span : Span} {trees : List Tree}

theorem sound_leaf (plain : kind ≠ .call ∧ kind ≠ .template ∧ kind ≠ .importStatement) :
    (leaf kind span).Sound start where
  bare _ := rfl
  template same := absurd same plain.2.1
  calls call member same := by
    rw [List.mem_singleton.mp member] at same
    exact absurd same plain.1
  statement same := absurd same plain.2.2

theorem calls_node (other : kind ≠ .call) (inside : ∀ tree ∈ trees, tree.Sound start) :
    ∀ call ∈ (node kind role span trees).all, call.kind = .call → CallSound start call := by
  intro call member same
  rcases List.mem_cons.mp member with rfl | below
  · exact absurd same other
  · obtain ⟨tree, listed, part⟩ := mem_allOf.mp below
    exact (inside tree listed).calls call part same

/-- Nodes that hold other trees and are no calls, templates or import statements. -/
def Holds (kind : Kind) : Prop :=
  kind ∉ [.call, .template, .importStatement, .punctuation, .comma, .keyword]

instance (kind : Kind) : Decidable (Holds kind) :=
  inferInstanceAs (Decidable (_ ∉ _))

theorem sound_node (holds : Holds kind) (inside : ∀ tree ∈ trees, tree.Sound start) :
    (node kind role span trees).Sound start where
  bare unnamed := by
    cases kind <;> first | exact absurd holds (by decide) | cases unnamed
  template same := by
    cases same
    exact absurd holds (by decide)
  calls := calls_node (by rintro rfl; exact absurd holds (by decide)) inside
  statement same := by
    cases same
    exact absurd holds (by decide)

theorem sound_ofReversed (holds : Holds kind) (inside : ∀ tree ∈ trees, tree.Sound start) :
    (ofReversed kind trees).Sound start :=
  sound_node holds fun tree member => inside tree (List.mem_reverse.mp member)

theorem sound_statement {statement : Tree} (kind : statement.kind = .importStatement) (callless : Callless [statement])
    (marks : start.Marks statement.span ∧ statement.span.start < statement.span.stop) : statement.Sound start where
  bare unnamed := by simp [isNamed, kind] at unnamed
  template same := by simp [kind] at same
  calls call member same := absurd same (callless call (by simpa [allOf] using member))
  statement _ := marks

theorem sound_template (substitutions : ∀ tree ∈ trees, tree.Sound start ∧ tree.kind = .substitution)
    (plain : trees = [] → ∃ first after, start.Reaches first ∧ (first.skip 1).Reaches after ∧
      span = ⟨first.offset, after.offset⟩ ∧ first.rest.head? = some '\x60' ∧ Closes (first.skip 1) after) :
    (node .template none span trees).Sound start where
  bare := nofun
  template _ := ⟨fun tree member => (substitutions tree member).2, plain⟩
  calls := calls_node nofun fun tree member => (substitutions tree member).1
  statement := nofun

end Tree

open TypedLiterals.Syntax.Tree (Sound sound_leaf sound_node sound_ofReversed sound_statement sound_template)

variable {start begins cursor after : Cursor} {trees front parts : List Tree} {tree callee : Tree}
  {setting : Setting} {progress : Progress} {fuel : Nat} {closer : Char} {before : Before}
  {result : Tree × Cursor} {read : List Tree × Cursor}

/-! ## Calls -/

theorem sound_argumentOf (inside : ∀ tree ∈ trees, tree.Sound start) : ∀ tree ∈ argumentOf trees, tree.Sound start := by
  unfold argumentOf
  split
  · exact inside
  · intro tree member
    rw [List.mem_singleton.mp member]
    exact sound_ofReversed (by decide) fun part listed => inside part (List.mem_reverse.mp listed)

theorem sound_splitArguments {pending : List Tree} (waiting : ∀ tree ∈ pending, tree.Sound start)
    (inside : ∀ tree ∈ trees, tree.Sound start) : ∀ tree ∈ splitArguments pending trees, tree.Sound start := by
  have argument : ∀ {pending : List Tree}, (∀ tree ∈ pending, tree.Sound start) →
      ∀ tree ∈ argumentOf pending.reverse, tree.Sound start :=
    fun waiting => sound_argumentOf fun tree member => waiting tree (List.mem_reverse.mp member)
  induction trees generalizing pending with
  | nil => exact argument waiting
  | cons first rest ih =>
      obtain ⟨here, others⟩ := List.forall_mem_cons.mp inside
      rw [splitArguments]
      split
      · have later := ih (List.forall_mem_nil _) others
        exact List.forall_mem_append.mpr ⟨argument waiting, List.forall_mem_cons.mpr ⟨here, later⟩⟩
      · exact ih (List.forall_mem_cons.mpr ⟨here, waiting⟩) others

/-- Whether trees, last first, are the parts of a call in front of its arguments, and begin where a reader stood. -/
structure Heads (start cursor : Cursor) (front : List Tree) : Prop where
  sound : ∀ part ∈ front, part.Sound start
  parts : ∀ part ∈ front, part.kind ≠ .arguments ∧ (part.children = [] ∨ part.kind = .typeArguments)
  begins : ∃ callee first, front.getLast? = some callee ∧ start.Reaches first ∧ first.Reaches cursor ∧
    callee.span.start = first.offset

theorem Heads.reached (heads : Heads start cursor front) : start.Reaches cursor := by
  obtain ⟨_, _, _, stood, here, _⟩ := heads.begins
  exact stood.trans here

theorem Heads.push (heads : Heads start cursor front) (reaches : cursor.Reaches after)
    (sound : ∀ part ∈ trees, part.Sound start)
    (parts : ∀ part ∈ trees, part.kind ≠ .arguments ∧ (part.children = [] ∨ part.kind = .typeArguments)) :
    Heads start after (trees ++ front) where
  sound := List.forall_mem_append.mpr ⟨sound, heads.sound⟩
  parts := List.forall_mem_append.mpr ⟨parts, heads.parts⟩
  begins := by
    obtain ⟨callee, first, last, stood, here, span⟩ := heads.begins
    exact ⟨callee, first, by rw [List.getLast?_append, last]; rfl, stood, here.trans reaches, span⟩

theorem Heads.push_one {kind : Kind} {span : Span} (heads : Heads start cursor front) (reaches : cursor.Reaches after)
    (sound : (Tree.node kind none span trees).Sound start)
    (part : kind ≠ .arguments ∧ (trees = [] ∨ kind = .typeArguments)) :
    Heads start after (.node kind none span trees :: front) :=
  @Heads.push start cursor after [_] front heads reaches (List.forall_mem_singleton.mpr sound)
    (List.forall_mem_singleton.mpr part)

theorem sound_trivia (count : Nat) (cursor : Cursor) :
    ∀ comment ∈ (trivia count cursor).1, comment.Sound start ∧ comment.kind = .comment ∧ comment.children = [] := by
  induction count generalizing cursor with
  | zero => exact List.forall_mem_nil _
  | succ count ih =>
      rw [trivia]
      split
      · exact List.forall_mem_nil _
      · exact List.forall_mem_cons.mpr ⟨⟨sound_leaf (by decide), rfl, rfl⟩, ih _⟩

theorem Heads.trivia (heads : Heads start cursor front) :
    Heads start cursor.trivia.2 (cursor.trivia.1.reverse ++ front) := by
  have comments := fun comment member => @sound_trivia start cursor.rest.length cursor comment
    (List.mem_reverse.mp member)
  refine heads.push (.trivia cursor) (fun comment member => (comments comment member).1) fun comment member => ?_
  obtain ⟨_, kind, none⟩ := comments comment member
  exact ⟨by simp [kind], .inl none⟩

/-- Whether a tree was read from a cursor on. -/
structure Makes (start cursor : Cursor) (result : Tree × Cursor) : Prop where
  reaches : cursor.Reaches result.2
  sound : result.1.Sound start

theorem Makes.from {middle : Cursor} (made : Makes start middle result) (reaches : cursor.Reaches middle) :
    Makes start cursor result :=
  ⟨reaches.trans made.reaches, made.sound⟩

/-- Whether trees were read from a cursor on. -/
structure Gives (start cursor : Cursor) (read : List Tree × Cursor) : Prop where
  reaches : cursor.Reaches read.2
  sound : ∀ tree ∈ read.1, tree.Sound start

theorem Gives.from {middle : Cursor} (given : Gives start middle read) (reaches : cursor.Reaches middle) :
    Gives start cursor read :=
  ⟨reaches.trans given.reaches, given.sound⟩

theorem sound_call_of_heads (heads : Heads start cursor front) : (Tree.ofReversed .call front).Sound start where
  bare := nofun
  template := nofun
  statement := nofun
  calls := by
    intro call member same
    rcases List.mem_cons.mp member with rfl | below
    · refine ⟨fun ⟨part, listed, kind⟩ => ?_, fun part listed => ?_⟩
      · exact absurd kind (heads.parts part (List.mem_reverse.mp listed)).1
      · exact (heads.parts part (List.mem_reverse.mp listed)).2.imp_right .inl
    · obtain ⟨part, listed, inside⟩ := Tree.mem_allOf.mp below
      exact (heads.sound part (List.mem_reverse.mp listed)).calls call inside same

theorem makes_call (heads : Heads start cursor front) (given : Gives start (cursor.skip 1) read) :
    Makes start cursor (.ofReversed .call (.node .arguments none ⟨cursor.offset, read.2.offset⟩
      (splitArguments [] read.1) :: front), read.2) := by
  obtain ⟨callee, first, last, stood, here, begins⟩ := heads.begins
  have reaches := (Reaches.skip 1 cursor).trans given.reaches
  have inside := @sound_splitArguments start read.1 [] nofun given.sound
  have span : (Tree.ofReversed .call (.node .arguments none ⟨cursor.offset, read.2.offset⟩
      (splitArguments [] read.1) :: front)).span = ⟨first.offset, read.2.offset⟩ := by
    have opens : (Tree.node .arguments none ⟨cursor.offset, read.2.offset⟩
        (splitArguments [] read.1) :: front).getLast? = some callee := by
      rw [List.getLast?_cons, last]
      rfl
    rw [← begins]
    exact Tree.span_ofReversed opens rfl
  refine ⟨reaches, ⟨⟨nofun, nofun⟩, ?_, nofun⟩⟩
  intro call member same
  rcases List.mem_cons.mp member with rfl | below
  · refine ⟨fun _ => ⟨first, read.2, stood, here.trans reaches, span⟩, fun part listed => ?_⟩
    rcases List.mem_cons.mp (List.mem_reverse.mp listed) with rfl | earlier
    · exact .inr (.inr ⟨rfl, fun argument member => (inside argument member).toArgumentSound⟩)
    · exact (heads.parts part earlier).2.imp_right .inl
  · obtain ⟨part, listed, nested⟩ := Tree.mem_allOf.mp below
    rcases List.mem_cons.mp (List.mem_reverse.mp listed) with rfl | earlier
    · exact @Tree.calls_node start .arguments _ _ _ nofun inside call nested same
    · exact (heads.sound part earlier).calls call nested same

/-! ## Rows -/

/-- Whether a row was read from a cursor on, and what it has so far is made as it should be. -/
structure Progress.Sound (start begins : Cursor) (progress : Progress) : Prop where
  started : start.Reaches begins
  reaches : begins.Reaches progress.cursor
  sound : ∀ tree ∈ progress.reversed, tree.Sound start

namespace Progress.Sound

variable {next : Before} {kind : Kind}

theorem here (sound : progress.Sound start begins) : start.Reaches progress.cursor :=
  sound.started.trans sound.reaches

theorem push (sound : progress.Sound start begins) (made : Makes start progress.cursor (tree, after)) :
    (progress.push tree next after).Sound start begins :=
  ⟨sound.started, sound.reaches.trans made.reaches, List.forall_mem_cons.mpr ⟨made.sound, sound.sound⟩⟩

theorem takeTo (sound : progress.Sound start begins) (reaches : progress.cursor.Reaches after)
    (plain : kind ≠ .call ∧ kind ≠ .template ∧ kind ≠ .importStatement) :
    (progress.takeTo kind after next).Sound start begins :=
  sound.push ⟨reaches, sound_leaf plain⟩

theorem take (sound : progress.Sound start begins) (count : Nat)
    (plain : kind ≠ .call ∧ kind ≠ .template ∧ kind ≠ .importStatement) :
    (progress.take kind count next).Sound start begins :=
  sound.takeTo (.skip count _) plain

end Progress.Sound

/-- What the readers of a depth make is as it should be. -/
structure Builds (start : Cursor) (fuel : Nat) : Prop where
  row : ∀ {setting progress begins}, Progress.Sound start begins progress →
    (row fuel setting progress).Sound start begins
  token : ∀ {setting progress begins}, Progress.Sound start begins progress →
    (token fuel setting progress).Sound start begins
  word : ∀ {setting progress begins}, Progress.Sound start begins progress →
    (word fuel setting progress).Sound start begins
  group : ∀ {setting closer before cursor}, start.Reaches cursor →
    Gives start cursor (group fuel setting closer before cursor)
  call : ∀ {setting callee cursor result}, Heads start cursor [callee] →
    call fuel setting callee cursor = some result → Makes start cursor result
  typedCall : ∀ {setting front cursor result}, Heads start cursor front →
    typedCall fuel setting front cursor = some result → Makes start cursor result
  applied : ∀ {setting front cursor}, Heads start cursor front →
    Makes start cursor (applied fuel setting front cursor)
  templateParts : ∀ {setting cursor parts}, start.Reaches cursor →
    (∀ tree ∈ parts, tree.Sound start ∧ tree.kind = .substitution) →
      cursor.Reaches (templateParts fuel setting cursor parts).2 ∧
      (∀ tree ∈ (templateParts fuel setting cursor parts).1, tree.Sound start ∧ tree.kind = .substitution) ∧
      ((templateParts fuel setting cursor parts).1 = [] →
        parts = [] ∧ Closes cursor (templateParts fuel setting cursor parts).2)
  typeParts : ∀ {setting before cursor parts read}, start.Reaches cursor → (∀ tree ∈ parts, tree.Sound start) →
    typeParts fuel setting before cursor parts = some read → Gives start cursor read
  element : ∀ {setting cursor result}, start.Reaches cursor → element fuel setting cursor = some result →
    Makes start cursor result
  attributeRow : ∀ {setting cursor parts read}, start.Reaches cursor → (∀ tree ∈ parts, tree.Sound start) →
    attributeRow fuel setting cursor parts = some read → Gives start cursor (read.1, read.2.1)
  elementContent : ∀ {setting cursor parts read}, start.Reaches cursor → (∀ tree ∈ parts, tree.Sound start) →
    elementContent fuel setting cursor parts = some read → Gives start cursor read

namespace Builds

variable (builds : Builds start fuel)
include builds

theorem row_succ (sound : progress.Sound start begins) :
    (Syntax.row (fuel + 1) setting progress).Sound start begins := by
  have skipped : Progress.Sound start begins { progress with cursor := progress.cursor.skipSpace } :=
    ⟨sound.started, sound.reaches.trans (.skipSpace _), sound.sound⟩
  rw [Syntax.row]
  split
  · next found => exact builds.row (skipped.push ⟨.comment? found, sound_leaf (by decide)⟩)
  · split
    · exact skipped
    · split
      · exact skipped
      · exact builds.row (builds.token skipped)

theorem group_succ (reached : start.Reaches cursor) :
    Gives start cursor (Syntax.group (fuel + 1) setting closer before cursor) := by
  have inner : (Syntax.row fuel (setting.inside closer) (.start cursor before)).Sound start cursor :=
    builds.row ⟨reached, .refl cursor, nofun⟩
  rw [Syntax.group]
  exact ⟨inner.reaches.trans (.close _ _), fun tree member => inner.sound tree (List.mem_reverse.mp member)⟩

theorem token_succ (sound : progress.Sound start begins) :
    (Syntax.token (fuel + 1) setting progress).Sound start begins := by
  have opened := Reaches.skip 1 progress.cursor
  have grouped : ∀ {kind : Kind} {setting : Setting} {closer : Char} {before next : Before}, Tree.Holds kind →
      (progress.push (.node kind none ⟨progress.cursor.offset,
        (Syntax.group fuel setting closer before (progress.cursor.skip 1)).2.offset⟩
        (Syntax.group fuel setting closer before (progress.cursor.skip 1)).1) next
        (Syntax.group fuel setting closer before (progress.cursor.skip 1)).2).Sound start begins := by
    intro kind setting closer before next holds
    have inner := @builds.group setting closer before _ (sound.here.trans opened)
    exact sound.push ⟨opened.trans inner.reaches, sound_node holds inner.sound⟩
  -- The reader is a ladder of tests on the next character: each rung is sound by itself, so no test has to be
  -- remembered where its rung does not use it.
  have cases : ∀ {test : Prop} [Decidable test] {yes no : Progress}, (test → yes.Sound start begins) →
      no.Sound start begins → (if test then yes else no).Sound start begins := by
    intro test _ yes no yesSound noSound
    split
    · next holds => exact yesSound holds
    · exact noSound
  cases text : progress.cursor.rest with
  | nil =>
      rw [Syntax.token, text]
      exact sound
  | cons character rest =>
      have behind : ∀ {parts : List Char × List Char}, parts.1 ++ parts.2 = rest →
          progress.cursor.Reaches ((progress.cursor.skip 1).behind parts) := by
        intro parts whole
        refine opened.trans (.behind ?_)
        rw [whole, Cursor.skip, Cursor.behind_eq, text, List.splitAt_eq]
        rfl
      rw [Syntax.token, text]
      dsimp only
      have comment : progress.cursor.Reaches (progress.cursor.behind (lineCommentRest (character :: rest))) :=
        .behind (by rw [text]; exact span_append _ _)
      refine cases (fun _ => builds.word sound) (cases
        (fun _ => sound.takeTo (behind (stringLiteralRest_whole _ _)) (by decide)) (cases (fun backtick => ?_) (cases
        (fun _ => sound.take _ (by decide)) (cases (fun _ => grouped (by decide)) (cases
        (fun _ => grouped (by decide)) (cases (fun _ => ?_) (cases
        (fun _ => sound.takeTo (behind (identifierRest_whole 0 _)) (by decide)) (cases (fun _ => ?_) (cases
        (fun _ => sound.takeTo comment (by decide)) (cases (fun _ => ?_) ?_))))))))))
      · obtain ⟨reaches, inside, closes⟩ := builds.templateParts (sound.here.trans opened)
          (List.forall_mem_nil _)
        refine sound.push ⟨opened.trans reaches, sound_template ?_ fun none => ?_⟩
        · exact fun tree member => inside tree (List.mem_reverse.mp member)
        · exact ⟨progress.cursor, _, sound.here, reaches, rfl, by rw [text, backtick]; rfl,
            (closes (List.reverse_eq_nil_iff.mp none)).2⟩
      · have inner := @builds.group setting '}' (if progress.before.opensBlock then .statement else .operator) _
          (sound.here.trans opened)
        exact ⟨sound.started, sound.reaches.trans (opened.trans inner.reaches),
          List.forall_mem_cons.mpr ⟨sound_node (by decide) inner.sound, sound.sound⟩⟩
      · split
        · next found => exact sound.takeTo (behind (regexRest?_whole found)) (by decide)
        · exact sound.take _ (by decide)
      · split
        · next found => exact sound.push (builds.element sound.here found)
        · exact sound.take _ (by decide)
      · have plain : ∀ kind : Kind, kind = (if character = ',' then .comma else .punctuation) →
            kind ≠ .call ∧ kind ≠ .template ∧ kind ≠ .importStatement := by
          rintro kind rfl
          split
          · decide
          · decide
        exact ⟨sound.started, sound.reaches.trans (.skip _ _),
          List.forall_mem_cons.mpr ⟨sound_leaf (plain _ rfl), sound.sound⟩⟩

theorem word_succ (sound : progress.Sound start begins) :
    (Syntax.word (fuel + 1) setting progress).Sound start begins := by
  have behind : progress.cursor.Reaches (progress.cursor.behind (identifierRest 0 progress.cursor.rest)) :=
    .behind (identifierRest_whole 0 _)
  rw [Syntax.word]
  dsimp only
  split
  · exact sound.takeTo behind (by decide)
  · split
    · split
      · next found =>
        rename_i effect statement after
        split at found
        · next plain =>
          obtain ⟨reaches, kind, span⟩ := reaches_importStatement? found
          have callless := callless_importStatement? (Tree.callless_leaf (by decide)) found
          have word : (identifierRest 0 progress.cursor.rest).1 = "import".toList := by
            rw [← (decide_eq_true_iff.mp (Bool.and_eq_true_iff.mp plain).1), String.toList_ofList]
          have wide : progress.cursor.offset < after.offset := by
            refine Nat.lt_of_lt_of_le ?_ reaches.le
            rw [Cursor.behind_eq, word]
            exact Nat.lt_add_of_pos_right (by decide)
          refine sound.push ⟨behind.trans reaches, sound_statement kind callless ⟨?_, by rw [span]; exact wide⟩⟩
          exact ⟨progress.cursor, _, sound.here, behind.trans reaches, span⟩
        · cases found
      · exact ⟨sound.started, sound.reaches.trans behind,
          List.forall_mem_cons.mpr ⟨sound_leaf (by decide), sound.sound⟩⟩
    · split
      · exact sound.takeTo behind (by decide)
      · split
        · exact sound.takeTo behind (by decide)
        · split
          · exact sound.takeTo behind (by decide)
          · split
            · next found =>
              have heads : Heads start (progress.cursor.behind (identifierRest 0 progress.cursor.rest))
                  [.leaf .identifier ⟨progress.cursor.offset,
                    (progress.cursor.behind (identifierRest 0 progress.cursor.rest)).offset⟩] :=
                ⟨List.forall_mem_singleton.mpr (sound_leaf (by decide)),
                  List.forall_mem_singleton.mpr ⟨by simp [Tree.leaf, Tree.kind], .inl rfl⟩, _, progress.cursor, rfl,
                  sound.here, behind, rfl⟩
              have made := builds.call heads found
              exact sound.push ⟨behind.trans made.reaches, made.sound⟩
            · exact sound.takeTo behind (by decide)

theorem applied_succ (heads : Heads start cursor front) :
    Makes start cursor (Syntax.applied (fuel + 1) setting front cursor) := by
  rw [Syntax.applied]
  exact makes_call heads (builds.group (heads.reached.trans (.skip 1 cursor)))

theorem typedCall_succ (heads : Heads start cursor front)
    (found : Syntax.typedCall (fuel + 1) setting front cursor = some result) : Makes start cursor result := by
  rw [Syntax.typedCall] at found
  split at found
  · cases found
  · next parts after listed =>
    have inner := builds.typeParts (heads.reached.trans (.skip 1 cursor)) (List.forall_mem_nil _) listed
    have reaches := (Reaches.skip 1 cursor).trans inner.reaches
    have types : (Tree.node .typeArguments none ⟨cursor.offset, after.offset⟩ parts.reverse).Sound start :=
      sound_node (by decide) fun tree member => inner.sound tree (List.mem_reverse.mp member)
    have typed := heads.push_one reaches types ⟨by decide, .inr rfl⟩
    dsimp only at found
    split at found
    · cases found
      exact (builds.applied typed.trivia).from (reaches.trans (.trivia after))
    · cases found

theorem call_succ (heads : Heads start cursor [callee])
    (found : Syntax.call (fuel + 1) setting callee cursor = some result) : Makes start cursor result := by
  have behind := heads.trivia
  have trivia := Reaches.trivia cursor
  rw [Syntax.call] at found
  dsimp only at found
  split at found
  · cases found
    exact (builds.applied behind).from trivia
  · split at found
    · cases found
    · have jump := Reaches.skip 2 cursor.trivia.2
      have mark : (Tree.leaf .punctuation ⟨cursor.trivia.2.offset, cursor.trivia.2.offset + 2⟩).Sound start :=
        sound_leaf (by decide)
      have chained := (behind.push_one jump mark ⟨by decide, .inl rfl⟩).trivia
      have reaches := trivia.trans (jump.trans (.trivia _))
      split at found
      · cases found
        exact (builds.applied chained).from reaches
      · split at found
        · exact (builds.typedCall chained found).from reaches
        · cases found
      · cases found
  · split at found
    · exact (builds.typedCall behind found).from trivia
    · cases found
  · cases found

theorem templateParts_succ (reached : start.Reaches cursor)
    (inside : ∀ tree ∈ parts, tree.Sound start ∧ tree.kind = .substitution) :
    cursor.Reaches (Syntax.templateParts (fuel + 1) setting cursor parts).2 ∧
      (∀ tree ∈ (Syntax.templateParts (fuel + 1) setting cursor parts).1,
        tree.Sound start ∧ tree.kind = .substitution) ∧
      ((Syntax.templateParts (fuel + 1) setting cursor parts).1 = [] →
        parts = [] ∧ Closes cursor (Syntax.templateParts (fuel + 1) setting cursor parts).2) := by
  have text : cursor.Reaches (cursor.behind (templateText cursor.rest)) := .behind (templateText_whole _)
  have ends := templateText_ends cursor.rest
  have left : (cursor.behind (templateText cursor.rest)).rest = (templateText cursor.rest).2 := by
    rw [Cursor.behind_eq]
  rw [Syntax.templateParts]
  dsimp only
  split
  · have opened := text.trans (.skip 2 _)
    have inner := @builds.group setting '}' .operator _ (reached.trans opened)
    obtain ⟨reaches, sound, closes⟩ := builds.templateParts (reached.trans (opened.trans inner.reaches))
      (List.forall_mem_cons.mpr ⟨⟨sound_node (by decide) inner.sound, rfl⟩, inside⟩)
    exact ⟨opened.trans (inner.reaches.trans reaches), sound, fun none => absurd (closes none).1 (List.cons_ne_nil _ _)⟩
  · next none => exact ⟨text, inside, fun empty => ⟨empty, .inr (.inl none)⟩⟩
  · next noSubstitution more =>
    refine ⟨text.trans (.skip 1 _), inside, fun empty => ⟨empty, .inl ?_⟩⟩
    rw [left] at more noSubstitution
    obtain ⟨rest, backtick⟩ := (ends.resolve_left more).resolve_left (not_exists.mpr noSubstitution)
    obtain ⟨body, whole⟩ := templateText_eq_iff.mp (Prod.ext rfl backtick)
    refine ⟨_, body, whole.trans ?_⟩
    rw [Cursor.behind_eq, Cursor.skip, Cursor.behind_eq, backtick, List.splitAt_eq]
    rfl

theorem typeParts_succ (reached : start.Reaches cursor) (sound : ∀ tree ∈ parts, tree.Sound start)
    (found : Syntax.typeParts (fuel + 1) setting before cursor parts = some read) : Gives start cursor read := by
  have trivia := Reaches.trivia cursor
  have front : ∀ tree ∈ cursor.trivia.1.reverse ++ parts, tree.Sound start :=
    List.forall_mem_append.mpr ⟨fun comment member => (sound_trivia _ _ comment (List.mem_reverse.mp member)).1, sound⟩
  rw [Syntax.typeParts] at found
  dsimp only at found
  generalize cursor.trivia.2 = here at trivia found
  generalize cursor.trivia.1.reverse ++ parts = trees at front found
  have stood := reached.trans trivia
  have next : ∀ {before : Before} {after : Cursor} {more : List Tree}, here.Reaches after →
      (∀ tree ∈ more, tree.Sound start) →
      Syntax.typeParts fuel setting before after (more ++ trees) = some read → Gives start cursor read :=
    fun reaches more found => (builds.typeParts (stood.trans reaches)
      (List.forall_mem_append.mpr ⟨more, front⟩) found).from (trivia.trans reaches)
  have leaf : ∀ {kind : Kind} {span : Span}, kind ≠ .call ∧ kind ≠ .template ∧ kind ≠ .importStatement →
      ∀ tree ∈ [Tree.leaf kind span], tree.Sound start :=
    fun plain => List.forall_mem_singleton.mpr (sound_leaf plain)
  split at found
  · cases found
  · cases found
    exact ⟨trivia.trans (.skip 1 here), front⟩
  · split at found
    · next inner after listed =>
      have given := builds.typeParts (stood.trans (.skip 1 here)) (List.forall_mem_nil _) listed
      have types : (Tree.node .typeArguments none ⟨here.offset, after.offset⟩ inner.reverse).Sound start :=
        sound_node (by decide) fun tree member => given.sound tree (List.mem_reverse.mp member)
      exact next ((Reaches.skip 1 here).trans given.reaches) (List.forall_mem_singleton.mpr types) found
    · cases found
  · exact next (.skip 2 here) (leaf (by decide)) found
  · cases found
  · cases found
  · cases found
  · split at found
    · refine next (.behind (identifierRest_whole 0 _)) (leaf ?_) found
      split
      · decide
      · decide
    · split at found
      · split at found
        · cases found
        · exact next (.skip 1 here) (leaf (by decide)) found
      · split at found
        · cases found
        · split at found
          · exact next (.skip 1 here) (leaf (by decide)) found
          · split at found
            · have made : (Syntax.token fuel setting (.start here .operator)).Sound start here :=
                builds.token ⟨stood, .refl here, List.forall_mem_nil _⟩
              exact next made.reaches made.sound found
            · cases found

theorem element_succ (reached : start.Reaches cursor)
    (found : Syntax.element (fuel + 1) setting cursor = some result) : Makes start cursor result := by
  have opened : cursor.Reaches (cursor.skip 1).trivia.2 := (Reaches.skip 1 cursor).trans (.trivia _)
  have finish : ∀ {parts : List Tree} {after : Cursor}, Gives start cursor (parts, after) →
      Makes start cursor (.node .element none ⟨cursor.offset, after.offset⟩ parts.reverse, after) :=
    fun given => ⟨given.reaches, sound_node (by decide) fun tree member =>
      given.sound tree (List.mem_reverse.mp member)⟩
  rw [Syntax.element] at found
  dsimp only at found
  generalize (cursor.skip 1).trivia.2 = here at opened found
  split at found
  · obtain ⟨read, listed, rfl⟩ := Option.map_eq_some_iff.mp found
    have behind := opened.trans (.skip 1 here)
    exact finish ((builds.elementContent (reached.trans behind) (List.forall_mem_nil _) listed).from behind)
  · split at found
    · -- The name may have type arguments, which are passed over.
      have named := opened.trans (.span isElementName here)
      have typed : ∀ {read : List Tree × Cursor}, Syntax.typeParts fuel setting .operator
          ((here.behind (here.rest.span isElementName)).skip 1) [] = some read → cursor.Reaches read.2 := by
        intro read types
        have behind := named.trans (.skip 1 _)
        exact behind.trans (builds.typeParts (reached.trans behind) (List.forall_mem_nil _) types).reaches
      split at found
      · next listed =>
        cases found
        have attributes := fun behind =>
          (builds.attributeRow (reached.trans behind) (List.forall_mem_nil _) listed).from behind
        refine finish (attributes ?_)
        split
        · split
          · next types => exact typed types
          · exact named
        · exact named
      · next listed =>
        obtain ⟨read, content, rfl⟩ := Option.map_eq_some_iff.mp found
        have attributes := fun behind =>
          (builds.attributeRow (reached.trans behind) (List.forall_mem_nil _) listed).from behind
        have inside := fun behind => (builds.elementContent (reached.trans (attributes behind).reaches)
          (attributes behind).sound content).from (attributes behind).reaches
        refine finish (inside ?_)
        split
        · split
          · next types => exact typed types
          · exact named
        · exact named
      · cases found
    · cases found
  · cases found

theorem attributeRow_succ {read : List Tree × Cursor × Bool} (reached : start.Reaches cursor)
    (sound : ∀ tree ∈ parts, tree.Sound start)
    (found : Syntax.attributeRow (fuel + 1) setting cursor parts = some read) :
    Gives start cursor (read.1, read.2.1) := by
  have trivia := Reaches.trivia cursor
  rw [Syntax.attributeRow] at found
  dsimp only at found
  generalize cursor.trivia.2 = here at trivia found
  have next : ∀ {after : Cursor} {trees : List Tree}, here.Reaches after → (∀ tree ∈ trees, tree.Sound start) →
      Syntax.attributeRow fuel setting after trees = some read → Gives start cursor (read.1, read.2.1) :=
    fun reaches trees found => (builds.attributeRow (reached.trans (trivia.trans reaches)) trees found).from
      (trivia.trans reaches)
  have value : here.Reaches (here.skip 1).trivia.2 := (Reaches.skip 1 here).trans (.trivia _)
  split at found
  · cases found
    exact ⟨trivia.trans (.skip 1 here), sound⟩
  · split at found
    · cases found
      exact ⟨trivia.trans (value.trans (.skip 1 _)), sound⟩
    · cases found
  · have inner := @builds.group setting '}' .operator _ (reached.trans (trivia.trans (.skip 1 here)))
    exact next ((Reaches.skip 1 here).trans inner.reaches)
      (List.forall_mem_cons.mpr ⟨sound_node (by decide) inner.sound, sound⟩) found
  · split at found
    · split at found
      · next element =>
        have made := builds.element (reached.trans (trivia.trans value)) element
        exact next (value.trans made.reaches) (List.forall_mem_cons.mpr ⟨made.sound, sound⟩) found
      · cases found
    · exact next value sound found
    · next quote rest text =>
      split at found
      · refine next (value.trans ((Reaches.skip 1 _).trans (.behind ?_))) sound found
        rw [attributeStringRest_whole, Cursor.skip, Cursor.behind_eq, text, List.splitAt_eq]
        rfl
      · cases found
    · cases found
  · split at found
    · exact next (.span _ here) sound found
    · cases found
  · cases found

theorem elementContent_succ (reached : start.Reaches cursor) (sound : ∀ tree ∈ parts, tree.Sound start)
    (found : Syntax.elementContent (fuel + 1) setting cursor parts = some read) : Gives start cursor read := by
  have content := Reaches.span isElementText cursor
  rw [Syntax.elementContent] at found
  dsimp only at found
  generalize cursor.behind (cursor.rest.span isElementText) = here at content found
  have next : ∀ {after : Cursor} {trees : List Tree}, here.Reaches after → (∀ tree ∈ trees, tree.Sound start) →
      Syntax.elementContent fuel setting after trees = some read → Gives start cursor read :=
    fun reaches trees found => (builds.elementContent (reached.trans (content.trans reaches)) trees found).from
      (content.trans reaches)
  split at found
  · have inner := @builds.group setting '}' .operator _ (reached.trans (content.trans (.skip 1 here)))
    exact next ((Reaches.skip 1 here).trans inner.reaches)
      (List.forall_mem_cons.mpr ⟨sound_node (by decide) inner.sound, sound⟩) found
  · split at found
    · split at found
      · cases found
        refine ⟨content.trans ((Reaches.skip 1 here).trans ((Reaches.trivia _).trans ?_)), sound⟩
        exact (Reaches.skip 1 _).trans ((Reaches.span _ _).trans (.skip 1 _))
      · cases found
    · split at found
      · next element =>
        have made := builds.element (reached.trans content) element
        exact next made.reaches (List.forall_mem_cons.mpr ⟨made.sound, sound⟩) found
      · cases found
  · cases found

end Builds

theorem builds (start : Cursor) (fuel : Nat) : Builds start fuel := by
  induction fuel with
  | zero =>
      exact
        { row := id
          token := fun sound => sound.take 1 (by decide)
          word := fun sound => sound.take 1 (by decide)
          group := fun _ => ⟨.refl _, List.forall_mem_nil _⟩
          call := nofun
          typedCall := nofun
          applied := fun heads => ⟨.refl _, sound_call_of_heads heads⟩
          templateParts := fun _ inside => ⟨.refl _, inside, fun none => ⟨none, .inr (.inr rfl)⟩⟩
          typeParts := nofun
          element := nofun
          attributeRow := nofun
          elementContent := nofun }
  | succ fuel builds =>
      exact
        { row := builds.row_succ
          token := builds.token_succ
          word := builds.word_succ
          group := builds.group_succ
          call := builds.call_succ
          typedCall := builds.typedCall_succ
          applied := builds.applied_succ
          templateParts := builds.templateParts_succ
          typeParts := builds.typeParts_succ
          element := builds.element_succ
          attributeRow := builds.attributeRow_succ
          elementContent := builds.elementContent_succ }

/-! ## Programs -/

theorem reaches_opening (text : List Char) : (Cursor.mk 0 text).Reaches (opening text).skipSpace := by
  refine .trans ?_ (.skipSpace _)
  unfold opening
  split
  · exact .span _ _
  · exact .refl _

/-- What stands in a program is made as it should be. -/
theorem sound_parse (dialect : Dialect) (text : List Char) :
    ∀ tree ∈ (parse dialect text).children, tree.Sound (opening text).skipSpace := by
  have read : ∀ (fuel : Nat) (progress : Progress), progress.cursor = opening text →
      (∀ tree ∈ progress.reversed, tree.Sound (opening text).skipSpace) →
      ∀ tree ∈ (row (fuel + 1) ⟨dialect, []⟩ progress).reversed, tree.Sound (opening text).skipSpace := by
    intro fuel progress here sound
    have started : Progress.Sound (opening text).skipSpace (opening text).skipSpace
        { progress with cursor := progress.cursor.skipSpace } :=
      ⟨.refl _, by rw [here]; exact .refl _, sound⟩
    have made : (row (fuel + 1) ⟨dialect, []⟩ progress).Sound _ _ :=
      row_skipSpace ▸ (builds _ (fuel + 1)).row started
    exact made.sound
  intro tree member
  unfold parse at member
  refine read _ _ ?_ ?_ tree (List.mem_reverse.mp member)
  · unfold opening
    split <;> rfl
  · split
    · exact List.forall_mem_singleton.mpr (sound_leaf (by decide))
    · exact List.forall_mem_nil _

end TypedLiterals.Syntax
