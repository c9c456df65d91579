import TypedLiterals.Proofs.Syntax.Layout
import TypedLiterals.Proofs.Syntax.Statement

/-!
Programs whose ranges are well nested.

Of the trees that a grammar gives, most facts about scans need no more than that ranges are well nested and that no
call stands in an import statement. The trees of the reader are such programs.
-/

namespace TypedLiterals.Syntax

namespace Tree

/-- Whether a tree is a program with well nested ranges and without calls in its import statements. -/
structure WellNested (program : Tree) : Prop where
  root : program.kind = .program
  laid : program.Laid
  callless : ∀ statement ∈ program.children, statement.kind = .importStatement →
    ∀ part ∈ statement.all, part.kind ≠ .call

variable {program statement call : Tree}

theorem WellNested.call_apart (nested : program.WellNested) (member : call ∈ program.all) (kind : call.kind = .call)
    (stands : statement ∈ program.children) (imports : statement.kind = .importStatement) :
    call.span.stop ≤ statement.span.start ∨ statement.span.stop ≤ call.span.start := by
  rcases eq_or_exists_child member with rfl | ⟨child, listed, inside⟩
  · cases nested.root.symm.trans kind
  · have childLaid := (nested.laid.of_mem_all (mem_all_of_mem_children listed child.mem_all_self)).1
    obtain ⟨_, begins, ends⟩ := childLaid.of_mem_all inside
    rcases nested.laid.children.eq_or_apart listed stands with rfl | before | behind
    · exact absurd kind (nested.callless child stands imports call inside)
    · exact .inl (Nat.le_trans ends before)
    · exact .inr (Nat.le_trans behind begins)

end Tree

theorem wellNested_parse (dialect : Dialect) (text : List Char) : (parse dialect text).WellNested where
  root := rfl
  laid := laid_parse dialect text
  callless _ stands imports _ inside := kind_of_mem_importStatement stands imports inside

end TypedLiterals.Syntax
