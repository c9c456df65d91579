import TypedLiterals.Proofs.Rewrite
import TypedLiterals.Proofs.Syntax.Nesting

/-!
Names that a rewritten text still mentions.

An identifier outside import statements is kept when a source is rewritten, unless it stands in a literal
call. So a name whose import is deleted goes out of use exactly when it stands in literal calls only.
-/

namespace TypedLiterals

open Text (byteLength)
open Syntax

variable {grammar : Grammar} {literals : Config.Literals} {path : Path} {text result name : String}
  {scanned : SourceScan} {artifacts : List Artifact} {outputDir : Path} {program tree : Tree} {span : Span}

namespace Scan

/-- The identifiers of a program outside its import statements. -/
def mentions (program : Tree) : List Tree :=
  ((program.children.filter (·.kind ≠ .importStatement)).flatMap Tree.all).filter (·.kind = .identifier)

/-- Whether a name stands at a span outside the import statements of a program. -/
def Mentions (program : Tree) (text name : String) (span : Span) : Prop :=
  ∃ tree ∈ mentions program, tree.span = span ∧ tree.textIn text.toList = name.toList

/-- The names that spare import statements bind. -/
def spareNames (literals : Config.Literals) (text : List Char) (program : Tree) : List String :=
  ((literalBindings literals text program).filter fun pair =>
    !pair.2.names.isEmpty && pair.2.others == 0).flatMap (·.2.names)

theorem mem_dedupAfter {occurrence : Occurrence} {calls : List Occurrence} {previous : Span}
    (member : occurrence ∈ dedupAfter previous calls) : occurrence ∈ calls := by
  induction calls generalizing previous with
  | nil => cases member
  | cons first rest ih =>
      rw [dedupAfter] at member
      split at member
      · exact List.mem_cons_of_mem _ (ih member)
      · rcases List.mem_cons.mp member with rfl | later
        · exact List.mem_cons_self
        · exact List.mem_cons_of_mem _ (ih later)

theorem mem_dedupSpans {occurrence : Occurrence} {calls : List Occurrence}
    (member : occurrence ∈ dedupSpans calls) : occurrence ∈ calls := by
  cases calls with
  | nil => cases member
  | cons first rest =>
      rcases List.mem_cons.mp member with rfl | later
      · exact List.mem_cons_self
      · exact List.mem_cons_of_mem _ (mem_dedupAfter later)

/-- Whether the only argument of a call is a template without substitutions. -/
structure IsLiteralCall (call arguments template : Tree) : Prop where
  isCall : call.kind = .call
  listed : call.children.filter (·.kind = .arguments) = [arguments]
  only : arguments.namedChildren = [template]
  isTemplate : template.kind = .template
  plain : ∀ child ∈ template.children, child.kind ≠ .substitution

theorem soleTemplate?_eq_some_iff {call template : Tree} :
    soleTemplate? call = some template ↔ ∃ arguments, call.children.filter (·.kind = .arguments) = [arguments] ∧
      arguments.namedChildren = [template] ∧ template.kind = .template ∧
      ∀ child ∈ template.children, child.kind ≠ .substitution := by
  rw [soleTemplate?]
  constructor
  · intro sole
    split at sole
    · next arguments listed =>
      split at sole
      · next only =>
        split at sole
        · next plain =>
          cases sole
          rw [Bool.and_eq_true, decide_eq_true_eq, Bool.not_eq_true', List.any_eq_false] at plain
          exact ⟨arguments, listed, only, plain.1, by simpa using plain.2⟩
        · cases sole
      · cases sole
    · cases sole
  · rintro ⟨arguments, listed, only, isTemplate, plain⟩
    simp only [listed, only, isTemplate, decide_true, Bool.true_and, Bool.not_eq_true', List.any_eq_false,
      decide_eq_true_eq]
    rw [if_pos plain]

/-- A tree is found when it is a literal call that applies one of the names. -/
theorem occurrence?_eq_some_iff {names : List String} {characters : List Char} {call : Tree}
    {occurrence : Occurrence} :
    occurrence? names characters call = some occurrence ↔
      ∃ callee, call.children.head? = some callee ∧ callee.kind = .identifier ∧
        String.ofList (callee.textIn characters) ∈ names ∧
        ∃ arguments template, IsLiteralCall call arguments template ∧
          occurrence = ⟨String.ofList (templateBody characters template), call.span⟩ := by
  rw [occurrence?]
  constructor
  · intro found
    split at found
    · next kind =>
      split at found
      · next callee applied =>
        split at found
        · next named =>
          obtain ⟨identifier, listed⟩ := by simpa using named
          obtain ⟨template, sole, rfl⟩ := Option.map_eq_some_iff.mp found
          obtain ⟨arguments, only, rest⟩ := soleTemplate?_eq_some_iff.mp sole
          exact ⟨callee, applied, identifier, listed, arguments, template,
            ⟨kind, only, rest.1, rest.2.1, rest.2.2⟩, rfl⟩
        · cases found
      · cases found
    · cases found
  · rintro ⟨callee, applied, identifier, listed, arguments, template, literal, rfl⟩
    have sole := soleTemplate?_eq_some_iff.mpr
      ⟨arguments, literal.listed, literal.only, literal.isTemplate, literal.plain⟩
    simp [literal.isCall, applied, identifier, listed, sole]

theorem exists_of_mem_occurrences {names : List String} {characters : List Char} {occurrence : Occurrence}
    (found : occurrence ∈ occurrences names characters program) :
    ∃ call ∈ program.all, occurrence? names characters call = some occurrence := by
  unfold occurrences at found
  split at found
  · cases found
  · exact List.mem_filterMap.mp ((Span.sortBy_perm _).mem_iff.mp (mem_dedupSpans found))

theorem exists_literalCall {names : List String} {characters : List Char} {occurrence : Occurrence}
    (found : occurrence ∈ occurrences names characters program) :
    ∃ call ∈ program.all, ∃ arguments template, IsLiteralCall call arguments template ∧
      occurrence = ⟨String.ofList (templateBody characters template), call.span⟩ := by
  obtain ⟨call, member, same⟩ := exists_of_mem_occurrences found
  obtain ⟨_, _, _, _, literal⟩ := occurrence?_eq_some_iff.mp same
  exact ⟨call, member, literal⟩

theorem exists_call {names : List String} {characters : List Char} {occurrence : Occurrence}
    (found : occurrence ∈ occurrences names characters program) :
    ∃ call ∈ program.all, call.kind = .call ∧ call.span = occurrence.call := by
  obtain ⟨call, member, _, _, literal, rfl⟩ := exists_literalCall found
  exact ⟨call, member, literal.isCall, rfl⟩

theorem mentions_of_span (listed : span ∈ (mentions program).map (·.span))
    (word : span.textIn text.toList = name.toList) : Mentions program text name span := by
  obtain ⟨tree, member, rfl⟩ := List.mem_map.mp listed
  exact ⟨tree, member, rfl, word⟩

theorem mem_imports_iff {characters : List Char} {statement : Tree} {module : String} :
    (statement, module) ∈ imports characters program ↔
      statement ∈ program.children ∧ statement.kind = .importStatement ∧
        ∃ source, statement.child? .source = some source ∧
          String.ofList (withoutQuotes (source.textIn characters)) = module := by
  rw [imports, List.mem_filterMap]
  constructor
  · rintro ⟨other, listed, found⟩
    split at found
    · next kind =>
      obtain ⟨source, child, same⟩ := Option.map_eq_some_iff.mp found
      obtain ⟨rfl, named⟩ := Prod.mk.inj same
      exact ⟨listed, kind, source, child, named⟩
    · cases found
  · rintro ⟨listed, kind, source, child, rfl⟩
    exact ⟨statement, listed, by rw [if_pos kind, child]; rfl⟩

theorem exists_statement {characters : List Char} (spare : span ∈ spareImports literals characters program) :
    ∃ statement ∈ program.children, statement.kind = .importStatement ∧ statement.span = span := by
  obtain ⟨pair, member, rfl⟩ := List.mem_map.mp spare
  obtain ⟨⟨statement, module⟩, listed, rfl⟩ := List.mem_map.mp (List.mem_of_mem_filter member)
  obtain ⟨inside, kind, _⟩ := mem_imports_iff.mp (List.mem_of_mem_filter listed)
  exact ⟨statement, inside, kind, rfl⟩

theorem spareImports_ne_nil {characters : List Char} (bound : name ∈ spareNames literals characters program) :
    spareImports literals characters program ≠ [] := by
  obtain ⟨pair, member, _⟩ := List.mem_flatMap.mp bound
  exact List.ne_nil_of_mem (List.mem_map_of_mem member)

section Laid

variable (laid : program.Laid) (mentioned : tree ∈ mentions program)
include laid mentioned

theorem call_around_or_apart {call : Tree} (member : call ∈ program.all) (kind : call.kind = .call) :
    (call.span.start ≤ tree.span.start ∧ tree.span.stop ≤ call.span.stop) ∨
      call.span.stop ≤ tree.span.start ∨ tree.span.stop ≤ call.span.start := by
  obtain ⟨inside, identifier⟩ := List.mem_filter.mp mentioned
  obtain ⟨child, listed, part⟩ := List.mem_flatMap.mp inside
  have whole := Tree.mem_all_of_mem_children (List.mem_of_mem_filter listed) part
  have laidTree := (laid.of_mem_all whole).1
  rcases laid.nested_or_apart member whole with around | nested | before | behind
  · exact .inl ((laid.of_mem_all member).1.of_mem_all around).2
  · -- A call is no part of an identifier.
    have same := laidTree.eq_of_identifier (by simpa using identifier) nested
    rw [same] at kind
    rw [kind] at identifier
    cases identifier
  · exact .inr (.inl before)
  · exact .inr (.inr behind)

theorem statement_apart {statement : Tree} (member : statement ∈ program.children)
    (kind : statement.kind = .importStatement) :
    statement.span.stop ≤ tree.span.start ∨ tree.span.stop ≤ statement.span.start := by
  obtain ⟨inside, _⟩ := List.mem_filter.mp mentioned
  obtain ⟨child, listed, part⟩ := List.mem_flatMap.mp inside
  obtain ⟨childMember, other⟩ := List.mem_filter.mp listed
  have laidChild := (laid.of_mem_all (Tree.mem_all_of_mem_children childMember child.mem_all_self)).1
  obtain ⟨_, before, behind⟩ := laidChild.of_mem_all part
  rcases laid.children.eq_or_apart member childMember with rfl | ends | begins
  · simp [kind] at other
  · exact .inl (Nat.le_trans ends before)
  · exact .inr (Nat.le_trans behind begins)

end Laid

end Scan

theorem exists_of_scan (read : scan literals path text grammar = .ok scanned) :
    ∃ dialect, scanned = .ofTree literals dialect text (grammar dialect text.toList) := by
  unfold scan at read
  split at read
  · next dialect _ => exact ⟨dialect, (Except.ok.inj read).symm⟩
  · cases read

/-! ## What is kept -/

namespace SourceScan

/-- Whether a rewrite keeps what stands at a span: no edit touches it, and it stands in the result where the
edits in front of it have moved it. -/
structure Keeps (scanned : SourceScan) (artifacts : List Artifact) (outputDir : Path) (result : String)
    (span : Span) : Prop where
  untouched : ∀ edit ∈ scanned.edits artifacts outputDir,
    edit.span.stop ≤ span.start ∨ span.stop ≤ edit.span.start
  stands : ∃ front back, result.toList = front ++ (span.textIn scanned.text.toList ++ back) ∧
    byteLength front = scanned.place artifacts outputDir span.start

theorem exists_callEdit (rewritten : scanned.rewrite artifacts outputDir = .ok result) {occurrence : Occurrence}
    (member : occurrence ∈ scanned.occurrences) :
    ∃ edit ∈ scanned.edits artifacts outputDir, edit.span = occurrence.call := by
  have counted := (rewrite_eq_ok rewritten).1
  obtain ⟨index, bound, rfl⟩ := List.mem_iff_getElem.mp member
  have both : index < (scanned.occurrences.zip artifacts).length := by
    rw [List.length_zip, counted, Nat.min_self]
    exact bound
  refine ⟨_, List.mem_append_left _ (List.mem_map_of_mem (List.getElem_mem both)), ?_⟩
  rw [List.getElem_zip]

/-- Where some import is spare, every edit is made at a literal call or at a spare import. -/
theorem span_of_mem_edits (spare : scanned.spareImports ≠ []) {edit : Edit}
    (member : edit ∈ scanned.edits artifacts outputDir) :
    (∃ occurrence ∈ scanned.occurrences, edit.span = occurrence.call) ∨ edit.span ∈ scanned.spareImports := by
  rcases List.mem_append.mp member with call | statement
  · obtain ⟨pair, inside, rfl⟩ := List.mem_map.mp call
    exact .inl ⟨pair.1, (List.of_mem_zip inside).1, rfl⟩
  · unfold importEdits at statement
    split at statement
    · next first rest same =>
      rw [same]
      rcases List.mem_cons.mp statement with rfl | later
      · exact .inr List.mem_cons_self
      · obtain ⟨span, inside, rfl⟩ := List.mem_map.mp later
        exact .inr (List.mem_cons_of_mem _ inside)
    · next none => exact absurd none spare

/-- Text that no edit touches is kept. -/
theorem keeps_of_untouched (rewritten : scanned.rewrite artifacts outputDir = .ok result)
    (present : span.textIn scanned.text.toList ≠ [])
    (untouched : ∀ edit ∈ scanned.edits artifacts outputDir,
      edit.span.stop ≤ span.start ∨ span.stop ≤ edit.span.start) :
    scanned.Keeps artifacts outputDir result span := by
  refine ⟨untouched, ?_⟩
  obtain ⟨before, behind, whole, start, stop⟩ := Span.exists_of_textIn present
  obtain ⟨front, back, written, moved⟩ := (writes_of_rewrite rewritten).kept whole present (by
    intro edit member
    rw [Nat.zero_add, start, stop]
    exact untouched edit ((Span.sortBy_perm _).mem_iff.mp member))
  exact ⟨front, back, written, by rw [moved, Nat.zero_add, start, place]⟩

/-- A rewrite that deletes an import keeps a mention of a name unless it stands in a literal call. -/
theorem keeps_mention_iff (read : scan literals path text grammar = .ok scanned)
    (laid : (grammar scanned.dialect text.toList).Laid)
    (rewritten : scanned.rewrite artifacts outputDir = .ok result) (spare : scanned.spareImports ≠ [])
    (named : name ≠ "") (mentioned : Scan.Mentions (grammar scanned.dialect text.toList) text name span) :
    scanned.Keeps artifacts outputDir result span ↔
      ∀ occurrence ∈ scanned.occurrences,
        ¬ (occurrence.call.start ≤ span.start ∧ span.stop ≤ occurrence.call.stop) := by
  obtain ⟨tree, member, rfl, word⟩ := mentioned
  obtain ⟨dialect, rfl⟩ := exists_of_scan read
  have present : tree.span.textIn text.toList ≠ [] := by
    rw [← Tree.textIn, word]
    simpa using named
  constructor
  · rintro ⟨untouched, _⟩ occurrence called ⟨before, behind⟩
    obtain ⟨_, _, _, _, wide⟩ := Span.exists_of_textIn present
    obtain ⟨edit, listed, same⟩ := exists_callEdit rewritten called
    have positive : 0 < byteLength (tree.span.textIn text.toList) :=
      Nat.pos_of_ne_zero fun empty => present (Text.eq_nil_of_byteLength empty)
    have apart := untouched edit listed
    rw [same] at apart
    omega
  · intro outside
    refine keeps_of_untouched rewritten present fun edit listed => ?_
    rcases span_of_mem_edits spare listed with ⟨occurrence, called, same⟩ | statement
    · obtain ⟨call, inside, kind, place⟩ := Scan.exists_call called
      rw [same, ← place]
      refine (Scan.call_around_or_apart laid member inside kind).resolve_left ?_
      rw [place]
      exact outside occurrence called
    · obtain ⟨statement, inside, kind, same⟩ := Scan.exists_statement statement
      rw [← same]
      exact Scan.statement_apart laid member inside kind

end SourceScan

/-- Whatever grammar a text is read by, if its tree is well nested: no name whose import is deleted stays in use,
if and only if each one stands in literal calls only. -/
theorem deleted_names_unused_iff (read : scan literals path text grammar = .ok scanned)
    (laid : (grammar scanned.dialect text.toList).Laid)
    (rewritten : scanned.rewrite artifacts outputDir = .ok result) :
    (∀ name ∈ Scan.spareNames literals text.toList (grammar scanned.dialect text.toList), name ≠ "" →
        ∀ span, Scan.Mentions (grammar scanned.dialect text.toList) text name span →
          ¬ scanned.Keeps artifacts outputDir result span) ↔
      ∀ name ∈ Scan.spareNames literals text.toList (grammar scanned.dialect text.toList), name ≠ "" →
        ∀ span, Scan.Mentions (grammar scanned.dialect text.toList) text name span →
          ∃ occurrence ∈ scanned.occurrences,
            occurrence.call.start ≤ span.start ∧ span.stop ≤ occurrence.call.stop := by
  refine forall₂_congr fun name bound => forall₃_congr fun named span mentioned => ?_
  have spare : scanned.spareImports ≠ [] := by
    obtain ⟨dialect, rfl⟩ := exists_of_scan read
    exact Scan.spareImports_ne_nil bound
  rw [SourceScan.keeps_mention_iff read laid rewritten spare named mentioned]
  simp

theorem smallText_mentions : (Scan.mentions (parse .javaScript smallText.toList)).map (·.span) = [⟨29, 32⟩] := by
  decide +kernel

theorem deleted_names_unused_small :
    scan {} ⟨"a.js"⟩ smallText = .ok smallScan ∧
    smallScan.rewrite [smallArtifact] ⟨"/o"⟩ = .ok "import * as Vab12 from '../c/a.js-ab12';Vab12;" ∧
    "gql" ∈ Scan.spareNames {} smallText.toList (parse .javaScript smallText.toList) ∧
    Scan.Mentions (parse .javaScript smallText.toList) smallText "gql" ⟨29, 32⟩ ∧
    ∀ span, Scan.Mentions (parse .javaScript smallText.toList) smallText "gql" span →
      ¬ smallScan.Keeps [smallArtifact] ⟨"/o"⟩ "import * as Vab12 from '../c/a.js-ab12';Vab12;" span := by
  have bound : "gql" ∈ Scan.spareNames {} smallText.toList (parse .javaScript smallText.toList) := by
    decide +kernel
  have only : ∀ name span, Scan.Mentions (parse .javaScript smallText.toList) smallText name span →
      span = ⟨29, 32⟩ := by
    rintro name span ⟨tree, member, rfl, _⟩
    have listed := List.mem_map_of_mem (f := (·.span)) member
    rw [smallText_mentions] at listed
    exact List.mem_singleton.mp listed
  refine ⟨smallScan_read, smallScan_rewritten, bound,
    Scan.mentions_of_span (by rw [smallText_mentions]; exact List.mem_cons_self) (by decide +kernel), ?_⟩
  refine (deleted_names_unused_iff smallScan_read (laid_parse _ _) smallScan_rewritten).mpr ?_ "gql" bound (by decide)
  intro name _ _ span mentioned
  rw [only name span mentioned]
  exact ⟨⟨"a", ⟨29, 37⟩⟩, List.mem_cons_self, by decide, by decide⟩

/-- A source with a literal call, and with a call that has a substitution. -/
def usingText : String := "import{gql}from'graphql-let';gql(\x60a\x60);gql(\x60${b}\x60)"

def usingScan : SourceScan :=
  ⟨usingText, .javaScript, [⟨"a", ⟨29, 37⟩⟩], [⟨0, 29⟩], []⟩

/-- A call with a substitution is no literal call, but it uses the name whose import is deleted. -/
theorem rewrite_unbinds_name :
    ∃ result, scan {} ⟨"a.js"⟩ usingText = .ok usingScan ∧
      usingScan.rewrite [smallArtifact] ⟨"/o"⟩ = .ok result ∧
      "gql" ∈ Scan.spareNames {} usingText.toList (parse .javaScript usingText.toList) ∧
      Scan.Mentions (parse .javaScript result.toList) result "gql" ⟨46, 49⟩ ∧
      (Scan.literalBindings {} result.toList (parse .javaScript result.toList)).isEmpty = true := by
  exact ⟨"import * as Vab12 from '../c/a.js-ab12';Vab12;gql(\x60${b}\x60)", by decide +kernel,
    by decide +kernel, by decide +kernel, Scan.mentions_of_span (by decide +kernel) (by decide +kernel),
    by decide +kernel⟩

end TypedLiterals
