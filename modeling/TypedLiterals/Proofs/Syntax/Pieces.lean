import TypedLiterals.Proofs.Syntax.Reading

/-!
What the pieces of an import statement make.

Each reader of a statement takes one piece after the other and gives a tree of one of a few forms. What is to be
shown of all these trees is shown form by form.
-/

namespace TypedLiterals.Syntax

variable {cursor : Cursor} {piece first : Piece} {read result : Tree × Cursor}

theorem identifierRest_whole (skip : Nat) (text : List Char) :
    (identifierRest skip text).1 ++ (identifierRest skip text).2 = text := by
  induction skip, text using identifierRest.induct with
  | case1 => rw [identifierRest, List.append_nil]
  | case2 skip character rest ih => rw [identifierRest, List.cons_append, ih]
  | case3 character rest part ih => rw [identifierRest, if_pos part, List.cons_append, ih]
  | case4 character rest part escape ih =>
      rw [identifierRest, if_neg part, if_pos escape, List.cons_append, ih]
  | case5 character rest part escape => rw [identifierRest, if_neg part, if_neg escape, List.nil_append]

theorem stringLiteralRest_whole (quote : Char) (text : List Char) :
    (stringLiteralRest quote text).1 ++ (stringLiteralRest quote text).2 = text := by
  fun_induction stringLiteralRest quote text <;> simp_all

namespace Piece

/-- A piece is a leaf over what is taken behind comments and spaces. -/
theorem piece?_eq_some (found : cursor.piece? = some piece) :
    ∃ kind taken rest, kind ∈ [Kind.identifier, .string, .punctuation] ∧ cursor.trivia.2.rest = taken ++ rest ∧
      piece = ⟨cursor.trivia.1,
        .leaf kind ⟨cursor.trivia.2.offset, (cursor.trivia.2.behind (taken, rest)).offset⟩, taken,
        cursor.trivia.2.behind (taken, rest)⟩ := by
  unfold Cursor.piece? at found
  dsimp only at found
  split at found
  · cases found
  · next character rest text =>
    split at found
    · cases found
      exact ⟨_, _, _, by decide, (identifierRest_whole 0 _).symm, rfl⟩
    · split at found
      · cases found
        refine ⟨_, _, _, by decide, ?_, rfl⟩
        rw [List.cons_append, stringLiteralRest_whole, text]
      · cases found
        exact ⟨_, _, _, by decide, by rw [text]; rfl, rfl⟩

/-- The parts of an import specifier up to its name, last first, and the cursor behind the name. A word that
modifies the specifier is in front of it. -/
inductive Names (first : Piece) : List Tree → Cursor → Prop where
  | plain : Names first [first.tree.withRole .name] first.after
  | modified {name : Piece} (next : first.after.piece? = some name) :
      Names first (name.tree.withRole .name :: (name.comments.reverse ++ [.leaf .keyword first.tree.span])) name.after

/-- What an import specifier is made of. Behind its name there may be another one that it is bound to. -/
inductive Specifies (first : Piece) : Tree × Cursor → Prop where
  | named {front : List Tree} {after : Cursor} (names : first.Names front after) :
      Specifies first (.ofReversed .importSpecifier front, after)
  | renamed {front : List Tree} {after : Cursor} {link binding : Piece} (names : first.Names front after)
      (linked : after.piece? = some link) (bound : link.after.piece? = some binding) :
      Specifies first (.ofReversed .importSpecifier
        (binding.reversed (binding.tree.withRole .localName) ++ link.reversed (.leaf .keyword link.tree.span) ++
          front), binding.after)

theorem specifies_specifier (first : Piece) : first.Specifies (specifier first) := by
  have second : ∀ piece, first.after.piece?.filter (·.isWord) = some piece → first.after.piece? = some piece :=
    fun piece found => (Option.filter_eq_some_iff.mp found).1
  have later : ∀ (before : Option Piece) (link piece : Piece), before = some link →
      (before.bind fun piece => piece.after.piece?.filter (·.isWord)) = some piece →
      link.after.piece? = some piece := by
    rintro _ link piece rfl found
    exact (Option.filter_eq_some_iff.mp found).1
  unfold specifier
  dsimp only
  generalize first.after.piece?.filter (·.isWord) = two at second ⊢
  have third := later two
  generalize (two.bind fun piece => piece.after.piece?.filter (·.isWord)) = three at third ⊢
  have fourth := later three
  generalize (three.bind fun piece => piece.after.piece?.filter (·.isWord)) = four at fourth ⊢
  have plain : first.Specifies (.ofReversed .importSpecifier [first.tree.withRole .name], first.after) := .named .plain
  cases two with
  | none =>
      dsimp only
      split
      · exact plain
      · exact plain
  | some name =>
      have named := second name rfl
      have unrenamed := Specifies.named (.modified named)
      cases three with
      | none =>
          dsimp only
          split
          · split
            · exact unrenamed
            · exact unrenamed
          · exact plain
      | some link =>
          have linked := third name link rfl rfl
          -- Without the word `type` in front of it, the name is the first piece, and the others rename it.
          have renamed := Specifies.renamed .plain named linked
          cases four with
          | none =>
              dsimp only
              split
              · split
                · exact renamed
                · exact unrenamed
              · split
                · next same =>
                    cases (Option.ite_none_right_eq_some.mp same).2
                    exact renamed
                · exact plain
          | some binding =>
              have full := Specifies.renamed (.modified named) linked (fourth link binding rfl rfl)
              dsimp only
              split
              · split
                · split
                  · exact full
                  · exact renamed
                · split
                  · next same =>
                      split at same
                      · cases same
                        exact full
                      · cases same
                  · exact unrenamed
              · split
                · next same =>
                    cases (Option.ite_none_right_eq_some.mp same).2
                    exact renamed
                · exact plain

/-- What named imports and namespace imports are made of. -/
inductive Groups (first : Piece) : Tree × Cursor → Prop where
  | names {count : Nat} {read : List Tree × Cursor}
      (listed : specifiers count first.after [first.tree] = some read) :
      Groups first (.ofReversed .namedImports read.1, read.2)
  | space {link name : Piece} (linked : first.after.piece? = some link) (named : link.after.piece? = some name) :
      Groups first (.ofReversed .namespaceImport
        (name.reversed name.tree ++ link.reversed (.leaf .keyword link.tree.span) ++ [first.tree]), name.after)

/-- What an import clause is made of. -/
inductive Binds (first : Piece) : Tree × Cursor → Prop where
  | name : Binds first (.ofReversed .importClause [first.tree], first.after)
  | both {comma mark : Piece} {group : Tree × Cursor} (next : first.after.piece? = some comma)
      (opens : comma.after.piece? = some mark) (listed : importGroup? mark = some group) :
      Binds first (.ofReversed .importClause
        (mark.reversed group.1 ++ comma.reversed comma.tree ++ [first.tree]), group.2)
  | group {group : Tree × Cursor} (listed : importGroup? first = some group) :
      Binds first (.ofReversed .importClause [group.1], group.2)

/-- The parts of a statement up to its clause, last first, and the piece that the clause begins with. A word that
modifies the statement belongs to the front. -/
inductive Opens (keyword : Tree) (first : Piece) : List Tree → Piece → Prop where
  | plain : Opens keyword first [keyword] first
  | modified {next : Piece} (follows : first.after.piece? = some next) :
      Opens keyword first (first.reversed (.leaf .keyword first.tree.span) ++ [keyword]) next

end Piece

/-- What a statement that imports is made of behind its keyword. -/
inductive Imports (keyword : Tree) (cursor : Cursor) : Tree × Cursor → Prop where
  | bare {first : Piece} (next : cursor.piece? = some first) :
      Imports keyword cursor
        (finishImport (first.reversed (first.tree.withRole .source) ++ [keyword]) first.after)
  | clause {first begins link source : Piece} {clause : Tree × Cursor} {front : List Tree}
      (next : cursor.piece? = some first) (opens : first.Opens keyword front begins)
      (read : importClause? begins = some clause) (joins : clause.2.piece? = some link)
      (last : link.after.piece? = some source) :
      Imports keyword cursor
        (finishImport (source.reversed (source.tree.withRole .source) ++
          link.reversed (.leaf .keyword link.tree.span) ++ begins.reversed clause.1 ++ front) source.after)

theorem groups_of_importGroup? (found : importGroup? first = some result) : first.Groups result := by
  unfold importGroup? at found
  split at found
  · obtain ⟨read, listed, rfl⟩ := Option.map_eq_some_iff.mp found
    exact .names listed
  · split at found
    · obtain ⟨link, next, found⟩ := Option.bind_eq_some_iff.mp found
      obtain ⟨name, last, found⟩ := Option.bind_eq_some_iff.mp found
      split at found
      · cases found
        exact .space next last
      · cases found
    · cases found

theorem binds_of_importClause? (found : importClause? first = some result) : first.Binds result := by
  unfold importClause? at found
  split at found
  · split at found
    · next comma next =>
      split at found
      · obtain ⟨mark, opens, found⟩ := Option.bind_eq_some_iff.mp found
        obtain ⟨group, listed, rfl⟩ := Option.map_eq_some_iff.mp found
        exact .both next opens listed
      · cases found
        exact .name
    · cases found
  · obtain ⟨group, listed, rfl⟩ := Option.map_eq_some_iff.mp found
    exact .group listed

theorem semicolon_cases (cursor : Cursor) : semicolon cursor = ([], cursor) ∨
    ∃ piece, cursor.piece? = some piece ∧ semicolon cursor = (piece.reversed piece.tree, piece.after) := by
  unfold semicolon
  split
  · exact .inl rfl
  · split
    · next piece found =>
      split
      · exact .inr ⟨piece, found, rfl⟩
      · exact .inl rfl
    · exact .inl rfl

theorem attributes?_eq_some {read : List Tree × Cursor} (found : attributes? cursor = some read) :
    ∃ word brace count inner, cursor.piece? = some word ∧ word.after.piece? = some brace ∧
      attributeParts count brace.after [brace.tree] = some inner ∧
      read = (.ofReversed .braces inner.1 ::
        (brace.comments.reverse ++ word.reversed (.leaf .keyword word.tree.span)), inner.2) := by
  unfold attributes? at found
  split at found
  · cases found
  · obtain ⟨word, next, found⟩ := Option.bind_eq_some_iff.mp found
    split at found
    · obtain ⟨brace, opens, found⟩ := Option.bind_eq_some_iff.mp found
      split at found
      · obtain ⟨inner, listed, rfl⟩ := Option.map_eq_some_iff.mp found
        exact ⟨word, brace, _, inner, next, opens, listed, rfl⟩
      · cases found
    · cases found

theorem imports_of_importStatement? {keyword : Tree} (found : importStatement? keyword cursor = some result) :
    Imports keyword cursor result := by
  unfold importStatement? at found
  obtain ⟨first, next, found⟩ := Option.bind_eq_some_iff.mp found
  split at found
  · cases found
    exact .bare next
  · obtain ⟨⟨front, begins⟩, modified, found⟩ := Option.bind_eq_some_iff.mp found
    obtain ⟨clause, read, found⟩ := Option.bind_eq_some_iff.mp found
    obtain ⟨link, joins, found⟩ := Option.bind_eq_some_iff.mp found
    obtain ⟨source, last, found⟩ := Option.bind_eq_some_iff.mp found
    have opens : first.Opens keyword front begins := by
      split at modified
      · obtain ⟨second, follows, same⟩ := Option.map_eq_some_iff.mp modified
        cases same
        exact .modified follows
      · cases modified
        exact .plain
    split at found
    · cases found
      exact .clause next opens read joins last
    · cases found

end TypedLiterals.Syntax
