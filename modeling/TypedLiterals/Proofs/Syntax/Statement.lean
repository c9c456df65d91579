import TypedLiterals.Proofs.Syntax.Layout

/-!
What stands in an import statement.

An import statement is read piece by piece and never as an expression, so no call is a part of it.
-/

namespace TypedLiterals.Syntax

namespace Tree

variable {tree : Tree} {trees others : List Tree} {kind : Kind}

/-- Whether no call is among trees and their parts. -/
def Callless (trees : List Tree) : Prop :=
  ∀ part ∈ allOf trees, part.kind ≠ .call

theorem callless_nil : Callless [] :=
  nofun

@[simp] theorem callless_append : Callless (trees ++ others) ↔ Callless trees ∧ Callless others := by
  simp only [Callless, mem_allOf, List.mem_append]
  grind

@[simp] theorem callless_reverse : Callless trees.reverse ↔ Callless trees := by
  simp only [Callless, mem_allOf, List.mem_reverse]

theorem callless_cons : Callless (tree :: trees) ↔ Callless [tree] ∧ Callless trees := by
  rw [← List.singleton_append, callless_append]

theorem callless_node {role : Option Role} {span : Span} (other : kind ≠ .call) (inside : Callless trees) :
    Callless [node kind role span trees] := by
  intro part member
  rw [allOf, allOf, List.append_nil, all] at member
  rcases List.mem_cons.mp member with rfl | below
  · exact other
  · exact inside part below

theorem callless_leaf {span : Span} (other : kind ≠ .call) : Callless [leaf kind span] :=
  callless_node other callless_nil

theorem callless_ofReversed (other : kind ≠ .call) (inside : Callless trees) :
    Callless [ofReversed kind trees] :=
  callless_node other (callless_reverse.mpr inside)

theorem callless_withRole (role : Role) (callless : Callless [tree]) : Callless [tree.withRole role] := by
  obtain ⟨kind, before, span, children⟩ := tree
  have whole : allOf [node kind before span children] = node kind before span children :: allOf children := by
    rw [allOf, allOf, List.append_nil, all]
  rw [Callless, whole] at callless
  exact callless_node (callless _ List.mem_cons_self) fun part member =>
    callless part (List.mem_cons_of_mem _ member)

end Tree

open TypedLiterals.Syntax.Tree (Callless callless_nil callless_cons callless_append callless_leaf callless_node callless_ofReversed
  callless_withRole)

variable {cursor : Cursor} {piece first : Piece} {parts front : List Tree} {read : List Tree × Cursor}
  {tree : Tree} {setting : Setting} {progress : Progress} {fuel : Nat}

theorem callless_trivia (count : Nat) (cursor : Cursor) : Callless (trivia count cursor).1 := by
  induction count generalizing cursor with
  | zero => exact callless_nil
  | succ count ih =>
      rw [trivia]
      split
      · exact callless_nil
      · exact callless_cons.mpr ⟨callless_leaf (by decide), ih _⟩

namespace Piece

/-- Whether neither a piece nor a comment in front of it is a call. -/
structure Quiet (piece : Piece) : Prop where
  tree : Callless [piece.tree]
  comments : Callless piece.comments

theorem quiet_of_piece? (found : cursor.piece? = some piece) : piece.Quiet := by
  obtain ⟨kind, taken, rest, plain, _, rfl⟩ := piece?_eq_some found
  have other : kind ≠ .call := by
    rintro rfl
    exact absurd plain (by decide)
  exact ⟨callless_leaf other, callless_trivia _ cursor⟩

theorem Quiet.reversed (quiet : piece.Quiet) (callless : Callless [tree]) : Callless (piece.reversed tree) := by
  rw [Piece.reversed, callless_cons, Tree.callless_reverse]
  exact ⟨callless, quiet.comments⟩

theorem Quiet.keyword (quiet : piece.Quiet) : Callless (piece.reversed (.leaf .keyword piece.tree.span)) :=
  quiet.reversed (callless_leaf nofun)

theorem Quiet.withRole (quiet : piece.Quiet) (role : Role) : Callless (piece.reversed (piece.tree.withRole role)) :=
  quiet.reversed (callless_withRole role quiet.tree)

end Piece

open Piece (quiet_of_piece?)

theorem Piece.Names.callless {after : Cursor} (names : first.Names front after) (quiet : first.Quiet) :
    Callless front := by
  cases names with
  | plain => exact callless_withRole .name quiet.tree
  | modified next =>
      have named := quiet_of_piece? next
      exact callless_cons.mpr ⟨callless_withRole .name named.tree,
        callless_append.mpr ⟨Tree.callless_reverse.mpr named.comments, callless_leaf nofun⟩⟩

theorem callless_specifier (quiet : first.Quiet) : Callless [(specifier first).1] := by
  have made := first.specifies_specifier
  generalize specifier first = read at made ⊢
  cases made with
  | named names => exact callless_ofReversed nofun (names.callless quiet)
  | renamed names next last =>
      have linked := (quiet_of_piece? next).keyword
      have bound := (quiet_of_piece? last).withRole .localName
      exact callless_ofReversed nofun (callless_append.mpr
        ⟨callless_append.mpr ⟨bound, linked⟩, names.callless quiet⟩)

theorem callless_specifiers {count : Nat} (callless : Callless parts)
    (found : specifiers count cursor parts = some read) : Callless read.1 := by
  induction count generalizing cursor parts with
  | zero => cases found
  | succ count ih =>
      rw [specifiers] at found
      obtain ⟨piece, next, found⟩ := Option.bind_eq_some_iff.mp found
      have quiet := quiet_of_piece? next
      split at found
      · cases found
        exact callless_append.mpr ⟨quiet.reversed quiet.tree, callless⟩
      · split at found
        · exact ih (callless_append.mpr ⟨quiet.reversed quiet.tree, callless⟩) found
        · split at found
          · exact ih (callless_append.mpr ⟨quiet.reversed (callless_specifier quiet), callless⟩) found
          · cases found

theorem callless_importGroup? {group : Tree × Cursor} (quiet : first.Quiet)
    (found : importGroup? first = some group) : Callless [group.1] := by
  cases groups_of_importGroup? found with
  | names listed => exact callless_ofReversed nofun (callless_specifiers quiet.tree listed)
  | space next last =>
      have linked := (quiet_of_piece? next).keyword
      have named := quiet_of_piece? last
      exact callless_ofReversed nofun (callless_append.mpr
        ⟨callless_append.mpr ⟨named.reversed named.tree, linked⟩, quiet.tree⟩)

theorem callless_importClause? {clause : Tree × Cursor} (quiet : first.Quiet)
    (found : importClause? first = some clause) : Callless [clause.1] := by
  cases binds_of_importClause? found with
  | name => exact callless_ofReversed nofun quiet.tree
  | both next opens listed =>
      have separated := quiet_of_piece? next
      have marked := quiet_of_piece? opens
      exact callless_ofReversed nofun (callless_append.mpr ⟨callless_append.mpr
        ⟨marked.reversed (callless_importGroup? marked listed), separated.reversed separated.tree⟩, quiet.tree⟩)
  | group listed => exact callless_ofReversed nofun (callless_importGroup? quiet listed)

theorem callless_semicolon (cursor : Cursor) : Callless (semicolon cursor).1 := by
  rcases semicolon_cases cursor with same | ⟨piece, found, same⟩
  · rw [same]
    exact callless_nil
  · have quiet := quiet_of_piece? found
    rw [same]
    exact quiet.reversed quiet.tree

theorem callless_attributeParts {count : Nat} (callless : Callless parts)
    (found : attributeParts count cursor parts = some read) : Callless read.1 := by
  induction count generalizing cursor parts with
  | zero => cases found
  | succ count ih =>
      rw [attributeParts] at found
      obtain ⟨piece, next, found⟩ := Option.bind_eq_some_iff.mp found
      have quiet := quiet_of_piece? next
      have longer := callless_append.mpr ⟨quiet.reversed quiet.tree, callless⟩
      split at found
      · cases found
        exact longer
      · exact ih longer found

theorem callless_attributes? (found : attributes? cursor = some read) : Callless read.1 := by
  obtain ⟨word, brace, count, inner, next, opens, listed, rfl⟩ := attributes?_eq_some found
  have worded := (quiet_of_piece? next).keyword
  have braced := quiet_of_piece? opens
  exact callless_cons.mpr ⟨callless_ofReversed nofun (callless_attributeParts braced.tree listed),
    callless_append.mpr ⟨Tree.callless_reverse.mpr braced.comments, worded⟩⟩

theorem callless_finishImport (callless : Callless parts) : Callless [(finishImport parts cursor).1] := by
  have attributed : Callless ((attributes? cursor).getD ([], cursor)).1 := by
    cases found : attributes? cursor with
    | none => exact callless_nil
    | some read => exact callless_attributes? found
  exact callless_ofReversed nofun
    (callless_append.mpr ⟨callless_append.mpr ⟨callless_semicolon _, attributed⟩, callless⟩)

theorem callless_importStatement? {keyword : Tree} {statement : Tree × Cursor} (opens : Callless [keyword])
    (found : importStatement? keyword cursor = some statement) : Callless [statement.1] := by
  cases imports_of_importStatement? found with
  | bare next => exact callless_finishImport (callless_append.mpr ⟨(quiet_of_piece? next).withRole .source, opens⟩)
  | @clause first begins link source clause front next modified read joins last =>
      have quiet := quiet_of_piece? next
      obtain ⟨callless, beginsQuiet⟩ : Callless front ∧ begins.Quiet := by
        cases modified with
        | plain => exact ⟨opens, quiet⟩
        | modified follows => exact ⟨callless_append.mpr ⟨quiet.keyword, opens⟩, quiet_of_piece? follows⟩
      exact callless_finishImport (callless_append.mpr ⟨callless_append.mpr ⟨callless_append.mpr
        ⟨(quiet_of_piece? last).withRole .source, (quiet_of_piece? joins).keyword⟩,
        beginsQuiet.reversed (callless_importClause? beginsQuiet read)⟩, callless⟩)

/-! ## Rows -/

/-- Whether no import statement among trees has a call in it. -/
def QuietImports (trees : List Tree) : Prop :=
  ∀ tree ∈ trees, tree.kind = .importStatement → Callless [tree]

theorem QuietImports.cons {trees : List Tree} (quiet : QuietImports trees)
    (next : tree.kind = .importStatement → Callless [tree]) : QuietImports (tree :: trees) := by
  intro other member
  rcases List.mem_cons.mp member with rfl | inside
  · exact next
  · exact quiet other inside

theorem QuietImports.cons_other {trees : List Tree} (quiet : QuietImports trees)
    (other : tree.kind ≠ .importStatement) : QuietImports (tree :: trees) :=
  quiet.cons fun same => absurd same other

theorem kind_applied (fuel : Nat) (setting : Setting) (front : List Tree) (cursor : Cursor) :
    (applied fuel setting front cursor).1.kind = .call := by
  cases fuel <;> rfl

theorem kind_typedCall {result : Tree × Cursor} (found : typedCall fuel setting front cursor = some result) :
    result.1.kind = .call := by
  cases fuel with
  | zero => cases found
  | succ fuel =>
      rw [typedCall] at found
      split at found
      · cases found
      · dsimp only at found
        split at found
        · cases found
          exact kind_applied _ _ _ _
        · cases found

theorem kind_call {callee : Tree} {result : Tree × Cursor} (found : call fuel setting callee cursor = some result) :
    result.1.kind = .call := by
  cases fuel with
  | zero => cases found
  | succ fuel =>
      rw [call] at found
      dsimp only at found
      split at found
      · cases found
        exact kind_applied _ _ _ _
      · split at found
        · cases found
        · split at found
          · cases found
            exact kind_applied _ _ _ _
          · split at found
            · exact kind_typedCall found
            · cases found
          · cases found
      · split at found
        · exact kind_typedCall found
        · cases found
      · cases found

theorem kind_element {result : Tree × Cursor} (found : element fuel setting cursor = some result) :
    result.1.kind = .element := by
  cases fuel with
  | zero => cases found
  | succ fuel =>
      rw [element] at found
      dsimp only at found
      split at found
      · obtain ⟨_, _, rfl⟩ := Option.map_eq_some_iff.mp found
        rfl
      · split at found
        · split at found
          · cases found
            rfl
          · obtain ⟨_, _, rfl⟩ := Option.map_eq_some_iff.mp found
            rfl
          · cases found
        · cases found
      · cases found

theorem quiet_word (quiet : QuietImports progress.reversed) :
    QuietImports (word fuel setting progress).reversed := by
  have leaf : ∀ {kind : Kind} {span : Span}, kind ≠ .importStatement →
      QuietImports (Tree.leaf kind span :: progress.reversed) := fun other => quiet.cons_other other
  cases fuel with
  | zero =>
      rw [word]
      exact leaf (by decide)
  | succ fuel =>
      unfold word
      dsimp only
      split
      · exact leaf (by decide)
      · split
        · split
          · next statement =>
            split at statement
            · refine quiet.cons fun _ => callless_importStatement? ?_ statement
              exact callless_leaf (by decide)
            · cases statement
          · exact leaf (by decide)
        · split
          · exact leaf (by decide)
          · split
            · exact leaf (by decide)
            · split
              · exact leaf (by decide)
              · split
                · next found => exact quiet.cons_other (by rw [kind_call found]; decide)
                · exact leaf (by decide)

theorem quiet_ite {condition : Prop} [Decidable condition] {other : Progress}
    (first : QuietImports progress.reversed) (second : QuietImports other.reversed) :
    QuietImports (if condition then progress else other).reversed := by
  split
  · exact first
  · exact second

theorem quiet_token (quiet : QuietImports progress.reversed) :
    QuietImports (token fuel setting progress).reversed := by
  have leaf : ∀ {kind : Kind} {span : Span}, kind ≠ .importStatement →
      QuietImports (Tree.leaf kind span :: progress.reversed) := fun other => quiet.cons_other other
  have node : ∀ {kind : Kind} {span : Span} {trees : List Tree}, kind ≠ .importStatement →
      QuietImports (Tree.node kind none span trees :: progress.reversed) := fun other => quiet.cons_other other
  cases fuel with
  | zero =>
      rw [token]
      exact leaf (by decide)
  | succ fuel =>
      unfold token
      dsimp only
      split
      · exact quiet
      · refine quiet_ite (quiet_word quiet) (quiet_ite (leaf (by decide)) (quiet_ite (node (by decide))
          (quiet_ite (leaf (by decide)) (quiet_ite (node (by decide)) (quiet_ite (node (by decide)) (quiet_ite (node (by decide))
          (quiet_ite (leaf (by decide)) (quiet_ite ?_ (quiet_ite (leaf (by decide)) (quiet_ite ?_ (leaf ?_)))))))))))
        · split
          · exact leaf (by decide)
          · exact leaf (by decide)
        · split
          · next found => exact quiet.cons_other (by rw [kind_element found]; decide)
          · exact leaf (by decide)
        · split
          · decide
          · decide

theorem quiet_row (quiet : QuietImports progress.reversed) :
    QuietImports (row fuel setting progress).reversed := by
  induction fuel generalizing progress with
  | zero => exact quiet
  | succ fuel ih =>
      unfold row
      dsimp only
      split
      · exact ih (quiet.cons_other nofun)
      · split
        · exact quiet
        · split
          · exact quiet
          · exact ih (quiet_token quiet)

/-- No call is a part of an import statement of a text. -/
theorem kind_of_mem_importStatement {dialect : Dialect} {text : List Char} {statement part : Tree}
    (member : statement ∈ (parse dialect text).children) (kind : statement.kind = .importStatement)
    (inside : part ∈ statement.all) : part.kind ≠ .call := by
  have quiet : QuietImports (Progress.start ⟨0, text⟩ .statement).reversed :=
    fun tree member => by cases member
  unfold parse at member
  rw [Tree.children, List.mem_reverse] at member
  refine quiet_row ?_ statement member kind part (by rwa [Tree.allOf, Tree.allOf, List.append_nil])
  split
  · refine quiet.cons_other fun same => ?_
    cases same
  · exact quiet

end TypedLiterals.Syntax
