import TypedLiterals.Proofs.Mention

/-!
Imports of generated modules in a rewritten text.

The new ones are written line by line. Those that the source had already are kept with all their parts,
unless new imports are put in front of them behind a line that the source does not begin with.
-/

namespace TypedLiterals

open Syntax

variable {grammar : Grammar} {literals : Config.Literals} {path : Path} {text result hash specifier : String}
  {scanned : SourceScan} {artifacts : List Artifact} {artifact : Artifact} {outputDir : Path}
  {program statement part : Tree}

/-! ## New imports -/

theorem exists_of_mem_intercalate {α : Type} {list : List α} {lists : List (List α)} (separator : List α)
    (member : list ∈ lists) : ∃ front back, separator.intercalate lists = front ++ (list ++ back) := by
  induction lists with
  | nil => cases member
  | cons first rest ih =>
      by_cases last : rest = []
      · subst last
        rw [List.mem_singleton.mp member]
        exact ⟨[], [], by simp⟩
      · rw [List.intercalate_cons_of_ne_nil last]
        rcases List.mem_cons.mp member with rfl | later
        · exact ⟨[], separator ++ separator.intercalate rest, by simp⟩
        · obtain ⟨front, back, same⟩ := ih later
          exact ⟨first ++ separator ++ front, back, by simp [same]⟩

theorem SourceScan.exists_importLine (rewritten : scanned.rewrite artifacts outputDir = .ok result)
    (new : artifact ∈ newImports scanned.importedHashes artifacts) :
    ∃ front back, result.toList = front ++ ((importLine outputDir artifact).toList ++ back) := by
  obtain ⟨edit, tail, listed, replacement⟩ := exists_importEdit outputDir (List.ne_nil_of_mem new)
  obtain ⟨front, back, written⟩ := (writes_of_rewrite rewritten).exists_replacement
    ((Span.sortBy_perm Edit.span).mem_iff.mpr listed)
  obtain ⟨before, behind, block⟩ := exists_of_mem_intercalate "\n".toList
    (List.mem_map_of_mem (f := String.toList) (List.mem_map_of_mem (f := importLine outputDir) new))
  refine ⟨front ++ before, behind ++ (tail ++ back), ?_⟩
  rw [written, replacement, importBlock, String.toList_intercalate, block]
  simp only [List.append_assoc]

/-! ## Kept imports -/

namespace Scan

/-- Whether a statement of a program imports the generated module of a fingerprint by a specifier. -/
structure Refers (text : List Char) (program statement : Tree) (hash specifier : String) : Prop where
  member : (statement, specifier) ∈ imports text program
  names : ∃ ident, namespaceOf? text statement = some ident ∧ hashOfName? ident specifier = some hash

theorem Refers.mem_artifactImports {characters : List Char}
    (refers : Refers characters program statement hash specifier) :
    ⟨hash, statement.span⟩ ∈ artifactImports characters program := by
  obtain ⟨ident, named, found⟩ := refers.names
  exact List.mem_filterMap.mpr ⟨_, refers.member, by simp [named, found]⟩

theorem Refers.mem_importedHashes (read : scan literals path text grammar = .ok scanned)
    (refers : Refers text.toList (grammar scanned.dialect text.toList) statement hash specifier) :
    hash ∈ scanned.importedHashes := by
  obtain ⟨dialect, rfl⟩ := exists_of_scan read
  exact List.mem_map.mpr ⟨_, refers.mem_artifactImports, rfl⟩

theorem statement_of_mem_imports {characters : List Char} {pair : Tree × String}
    (member : pair ∈ imports characters program) : pair.1 ∈ program.children ∧ pair.1.kind = .importStatement := by
  obtain ⟨inside, kind, _⟩ := mem_imports_iff.mp member
  exact ⟨inside, kind⟩

/-- A namespace is no literal function, so its import is not spare. -/
theorem others_of_namespaceOf? {functions : List String} {characters : List Char} {ident : String}
    (named : namespaceOf? characters statement = some ident) :
    (boundByImport functions characters statement).others = 1 := by
  unfold namespaceOf? at named
  split at named
  · next clause clauses =>
    split at named
    · next part parts =>
      split at named
      · next kind =>
        simp [boundByImport, clauses, parts, boundByPart, kind]
      · cases named
    · cases named
  · cases named

/-- A spare import and a reference to a generated module are different statements, and so apart. -/
theorem Refers.spare_apart {characters : List Char} {span : Span} (laid : program.Laid)
    (refers : Refers characters program statement hash specifier)
    (spare : span ∈ spareImports literals characters program) :
    span.stop ≤ statement.span.start ∨ statement.span.stop ≤ span.start := by
  obtain ⟨pair, member, rfl⟩ := List.mem_map.mp spare
  obtain ⟨listed, binds⟩ := List.mem_filter.mp member
  obtain ⟨imported, inside, rfl⟩ := List.mem_map.mp listed
  obtain ⟨ident, named, _⟩ := refers.names
  rcases laid.children.eq_or_apart (statement_of_mem_imports (List.mem_of_mem_filter inside)).1
    (statement_of_mem_imports refers.member).1 with same | apart
  · dsimp only at same binds
    rw [same, others_of_namespaceOf? named] at binds
    simp at binds
  · exact apart

end Scan

namespace SourceScan

/-- Every edit is made at a literal call or at a spare import, or puts new imports behind a first line. -/
theorem mem_edits_cases {edit : Edit} (member : edit ∈ scanned.edits artifacts outputDir) :
    (∃ occurrence ∈ scanned.occurrences, edit.span = occurrence.call) ∨ edit.span ∈ scanned.spareImports ∨
      edit.span = ⟨importOffset scanned.text.toList, importOffset scanned.text.toList⟩ := by
  by_cases spare : scanned.spareImports = []
  · rcases List.mem_append.mp member with call | insertion
    · obtain ⟨pair, inside, rfl⟩ := List.mem_map.mp call
      exact .inl ⟨pair.1, (List.of_mem_zip inside).1, rfl⟩
    · rw [importEdits, spare] at insertion
      dsimp only at insertion
      split at insertion
      · cases insertion
      · rw [List.mem_singleton.mp insertion]
        exact .inr (.inr rfl)
  · rcases span_of_mem_edits spare member with call | statement
    · exact .inl call
    · exact .inr (.inl statement)

/-- A rewrite keeps all parts of a statement that refers to a generated module. -/
theorem keeps_reference (read : scan literals path text grammar = .ok scanned)
    (nested : (grammar scanned.dialect text.toList).WellNested)
    (rewritten : scanned.rewrite artifacts outputDir = .ok result)
    (refers : Scan.Refers text.toList (grammar scanned.dialect text.toList) statement hash specifier)
    (behind : importOffset text.toList ≤ statement.span.start) (inside : part ∈ statement.all)
    (present : part.textIn text.toList ≠ []) : scanned.Keeps artifacts outputDir result part.span := by
  obtain ⟨dialect, rfl⟩ := exists_of_scan read
  obtain ⟨stands, kind⟩ := Scan.statement_of_mem_imports refers.member
  have statementLaid := (nested.laid.of_mem_all (Tree.mem_all_of_mem_children stands statement.mem_all_self)).1
  obtain ⟨_, begins, ends⟩ := statementLaid.of_mem_all inside
  refine keeps_of_untouched rewritten present fun edit listed => ?_
  suffices apart : edit.span.stop ≤ statement.span.start ∨ statement.span.stop ≤ edit.span.start from
    apart.imp (Nat.le_trans · begins) (Nat.le_trans ends)
  rcases mem_edits_cases listed with ⟨occurrence, called, same⟩ | spare | same
  · obtain ⟨call, member, isCall, place⟩ := Scan.exists_call called
    rw [same, ← place]
    exact nested.call_apart member isCall stands kind
  · exact refers.spare_apart nested.laid spare
  · rw [same]
    exact .inl behind

end SourceScan

end TypedLiterals
