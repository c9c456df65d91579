import TypedLiterals.Proofs.Reference
import TypedLiterals.Proofs.Syntax.Grammar

/-!
What a scan finds can be rewritten.

A literal call has no parts but its callee, comments, type arguments and one plain template. So no literal call
is a part of another one, and neither calls nor import statements share text.
-/

namespace TypedLiterals

open Syntax

/-! ## Parts of literal calls -/

namespace Scan

variable {literals : Config.Literals} {program call other arguments template : Tree} {span : Span}
  {text : List Char} {names : List String} {occurrence : Occurrence}

namespace IsLiteralCall

variable (literal : IsLiteralCall call arguments template)
include literal

theorem arguments_mem : arguments ∈ call.children ∧ arguments.kind = .arguments := by
  have listed : arguments ∈ call.children.filter (·.kind = .arguments) := by
    rw [literal.listed]
    exact List.mem_cons_self
  simpa using listed

theorem template_mem : template ∈ arguments.children := by
  have listed : template ∈ arguments.namedChildren := by
    rw [literal.only]
    exact List.mem_cons_self
  exact (List.mem_filter.mp listed).1

variable (applied : call.IsApplication text)
include applied

theorem isArgument : ∀ argument ∈ arguments.children, argument.IsArgument text := by
  obtain ⟨listed, kind⟩ := literal.arguments_mem
  rcases applied.parts arguments listed with none | types | ⟨_, inside⟩
  · have member := literal.template_mem
    rw [none] at member
    cases member
  · rw [kind] at types
    cases types
  · exact inside

theorem children_template : template.children = [] :=
  List.eq_nil_iff_forall_not_mem.mpr fun child member =>
    literal.plain child member
      ((literal.isArgument applied template literal.template_mem).substitutions literal.isTemplate child member)

theorem stands : call.span.Stands text :=
  applied.stands ⟨arguments, literal.arguments_mem⟩

omit applied in
theorem children_ne_nil : call.children ≠ [] :=
  List.ne_nil_of_mem literal.arguments_mem.1

/-- No other literal call is a part of a literal call. -/
theorem eq_of_mem_all (types : call.PlainTypes) {otherArguments otherTemplate : Tree}
    (also : IsLiteralCall other otherArguments otherTemplate) (inside : other ∈ call.all) : other = call := by
  have bare : ∀ {tree : Tree}, tree.children = [] → other ∉ tree.all := fun none member =>
    also.children_ne_nil (by rw [Tree.eq_of_children_eq_nil none member, none])
  rcases Tree.eq_or_exists_child inside with same | ⟨child, listed, part⟩
  · exact same
  exfalso
  rcases applied.parts child listed with none | isTypes | ⟨kind, _⟩
  · exact bare none part
  · exact types child (Tree.mem_all_of_mem_children listed child.mem_all_self) isTypes other part also.isCall
  · obtain rfl : child = arguments := by
      have member : child ∈ call.children.filter (·.kind = .arguments) :=
        List.mem_filter.mpr ⟨listed, by simpa using kind⟩
      rw [literal.listed] at member
      exact List.mem_singleton.mp member
    rcases Tree.eq_or_exists_child part with rfl | ⟨argument, member, deeper⟩
    · rw [also.isCall] at kind
      cases kind
    · by_cases named : argument.isNamed
      · obtain rfl : argument = template := by
          have among : argument ∈ child.namedChildren := List.mem_filter.mpr ⟨member, named⟩
          rw [literal.only] at among
          exact List.mem_singleton.mp among
        exact bare (literal.children_template applied) deeper
      · exact bare ((literal.isArgument applied argument member).bare (by simpa using named)) deeper

theorem templateBody_eq : template.textIn text = '\x60' :: (templateBody text template ++ ['\x60']) ∧
    IsTemplateBody (templateBody text template) := by
  obtain ⟨body, covered, isBody⟩ := (literal.isArgument applied template literal.template_mem).plain
    literal.isTemplate (literal.children_template applied)
  have same : templateBody text template = body := Span.textIn_between covered
  rw [same]
  exact ⟨covered, isBody⟩

end IsLiteralCall

/-! ## Order of position -/

theorem pairwise_dedupAfter {previous : Span} {calls : List Occurrence}
    (ordered : calls.Pairwise fun first second => first.call.le second.call = true)
    (behind : ∀ occurrence ∈ calls, previous.le occurrence.call = true) :
    (∀ occurrence ∈ dedupAfter previous calls, occurrence.call ≠ previous) ∧ (dedupAfter previous calls).Pairwise
      fun first second => first.call.le second.call = true ∧ second.call ≠ first.call := by
  induction calls generalizing previous with
  | nil => exact ⟨nofun, .nil⟩
  | cons next rest ih =>
      obtain ⟨nextBehind, restBehind⟩ := List.forall_mem_cons.mp behind
      obtain ⟨nextFirst, restOrdered⟩ := List.pairwise_cons.mp ordered
      rw [dedupAfter]
      split
      · exact ih restOrdered restBehind
      · next other =>
        obtain ⟨fresh, apart⟩ := ih restOrdered nextFirst
        refine ⟨List.forall_mem_cons.mpr ⟨other, fun occurrence member same => ?_⟩,
          .cons (fun occurrence member => ⟨nextFirst _ (mem_dedupAfter member), fresh _ member⟩) apart⟩
        have before := nextFirst occurrence (mem_dedupAfter member)
        rw [same] at before
        exact other (Span.le_antisymm before nextBehind)

theorem pairwise_dedupSpans {calls : List Occurrence}
    (ordered : calls.Pairwise fun first second => first.call.le second.call = true) :
    (dedupSpans calls).Pairwise fun first second => first.call.le second.call = true ∧ second.call ≠ first.call := by
  cases calls with
  | nil => exact .nil
  | cons first rest =>
      obtain ⟨behind, restOrdered⟩ := List.pairwise_cons.mp ordered
      obtain ⟨fresh, apart⟩ := pairwise_dedupAfter restOrdered behind
      exact .cons (fun occurrence member => ⟨behind _ (mem_dedupAfter member), fresh _ member⟩) apart

theorem pairwise_occurrences : (occurrences names text program).Pairwise fun first second =>
    first.call.le second.call = true ∧ second.call ≠ first.call := by
  unfold occurrences
  split
  · exact .nil
  · exact pairwise_dedupSpans (Span.pairwise_sortBy _ _)

/-! ## Programs -/

section

variable (grammatical : program.Grammatical text)
include grammatical

theorem stands_of_mem_occurrences (found : occurrence ∈ occurrences names text program) :
    occurrence.call.Stands text := by
  obtain ⟨call, member, _, _, literal, rfl⟩ := exists_literalCall found
  exact literal.stands (grammatical.calls call member literal.isCall)

theorem stands_of_mem_spareImports (spare : span ∈ spareImports literals text program) : span.Stands text := by
  obtain ⟨statement, listed, kind, rfl⟩ := exists_statement spare
  exact grammatical.statements statement listed kind

theorem stands_of_mem_artifactImports {reference : ArtifactImport} (found : reference ∈ artifactImports text program) :
    reference.statement.Stands text := by
  obtain ⟨pair, imported, told⟩ := List.mem_filterMap.mp found
  obtain ⟨_, _, told⟩ := Option.bind_eq_some_iff.mp told
  obtain ⟨_, _, rfl⟩ := Option.map_eq_some_iff.mp told
  obtain ⟨listed, kind⟩ := statement_of_mem_imports imported
  exact grammatical.statements _ listed kind

/-- Literal calls stand one behind the other. -/
theorem increasing_occurrences : (occurrences names text program).Pairwise
    fun first second => first.call.start < second.call.start ∧ first.call.stop ≤ second.call.start := by
  refine pairwise_occurrences.imp_of_mem fun {first second} found also ⟨ordered, distinct⟩ => ?_
  have firstWide := (stands_of_mem_occurrences grammatical found).wide
  have secondWide := (stands_of_mem_occurrences grammatical also).wide
  have order := Span.le_iff.mp ordered
  suffices behind : first.call.stop ≤ second.call.start from ⟨Nat.lt_of_lt_of_le firstWide behind, behind⟩
  obtain ⟨call, member, _, _, literal, rfl⟩ := exists_literalCall found
  obtain ⟨other, alsoMember, _, _, otherLiteral, rfl⟩ := exists_literalCall also
  dsimp only at order distinct secondWide ⊢
  rcases grammatical.laid.nested_or_apart member alsoMember with inside | inside | before | behind
  · exact absurd (congrArg Tree.span (literal.eq_of_mem_all (grammatical.calls call member literal.isCall)
      (grammatical.types.of_mem_all member) otherLiteral inside)) distinct
  · exact absurd (congrArg Tree.span (otherLiteral.eq_of_mem_all (grammatical.calls other alsoMember
      otherLiteral.isCall) (grammatical.types.of_mem_all alsoMember) literal inside)).symm distinct
  · exact before
  · omega

/-- Spare imports stand one behind the other. -/
theorem pairwise_spareImports :
    (spareImports literals text program).Pairwise fun first second => first.stop ≤ second.start := by
  have statements : (imports text program).Pairwise fun first second => first.1.span.stop ≤ second.1.span.start := by
    unfold imports
    refine List.pairwise_filterMap.mpr (grammatical.laid.pairwise_children.imp fun apart => ?_)
    intro one isOne other isOther
    have named : ∀ {statement : Tree} {pair : Tree × String}, (if statement.kind = .importStatement then
        (statement.child? .source).map fun source =>
          (statement, String.ofList (withoutQuotes (source.textIn text))) else none) = some pair →
        pair.1 = statement := by
      intro statement pair same
      split at same
      · obtain ⟨_, _, rfl⟩ := Option.map_eq_some_iff.mp same
        rfl
      · cases same
    rw [named isOne, named isOther]
    exact apart
  unfold spareImports literalBindings
  exact List.pairwise_map.mpr ((List.pairwise_map.mpr (statements.filter _)).filter _)

theorem apart_of_mem (found : occurrence ∈ occurrences names text program) {statement : Tree}
    (listed : statement ∈ program.children) (kind : statement.kind = .importStatement) :
    occurrence.call.stop ≤ statement.span.start ∨ statement.span.stop ≤ occurrence.call.start := by
  obtain ⟨call, member, isCall, same⟩ := exists_call found
  rw [← same]
  exact grammatical.call_apart member isCall listed kind

end

end Scan

/-! ## Scans -/

namespace SourceScan

/-- Whether what a scan reports stands in order and apart in its text, and each literal as it is written. -/
structure Sound (scanned : SourceScan) (program : Tree) : Prop where
  increasing : scanned.occurrences.Pairwise fun first second =>
    first.call.start < second.call.start ∧ first.call.stop ≤ second.call.start
  within : ∀ span ∈ scanned.ranges ++ scanned.artifactImports.map (·.statement), span.Within scanned.text.toList
  beside : ∀ occurrence ∈ scanned.occurrences, ∀ statement ∈ program.children, statement.kind = .importStatement →
    occurrence.call.stop ≤ statement.span.start ∨ statement.span.stop ≤ occurrence.call.start
  literal : ∀ occurrence ∈ scanned.occurrences, ∃ call ∈ program.all, ∃ arguments template,
    Scan.IsLiteralCall call arguments template ∧ call.span = occurrence.call ∧
      template.textIn scanned.text.toList = '\x60' :: (occurrence.literal.toList ++ ['\x60']) ∧
      IsTemplateBody occurrence.literal.toList

variable {literals : Config.Literals} {dialect : Dialect} {text : String} {program : Tree}
  (grammatical : program.Grammatical text.toList)
include grammatical

/-- What a scan finds can be replaced. -/
theorem replaceable_ofTree : (ofTree literals dialect text program).Replaceable := by
  have stands : ∀ span ∈ (ofTree literals dialect text program).ranges, span.Stands text.toList := by
    refine List.forall_mem_append.mpr ⟨List.forall_mem_map.mpr fun occurrence found => ?_, fun span spare => ?_⟩
    · exact Scan.stands_of_mem_occurrences grammatical found
    · exact Scan.stands_of_mem_spareImports grammatical spare
  refine ⟨fun span member => (stands span member).wide, fun span member => (stands span member).within, ?_,
    fun offset ends span member => .inr ((stands span member).behind offset ends)⟩
  refine List.pairwise_append.mpr ⟨List.pairwise_map.mpr ?_,
    (Scan.pairwise_spareImports grammatical).imp .inl, ?_⟩
  · exact (Scan.increasing_occurrences grammatical).imp fun apart => .inl apart.2
  · intro span called other spare
    obtain ⟨occurrence, found, rfl⟩ := List.mem_map.mp called
    obtain ⟨statement, listed, kind, rfl⟩ := Scan.exists_statement spare
    exact Scan.apart_of_mem grammatical found listed kind

theorem sound_ofTree : (ofTree literals dialect text program).Sound program where
  increasing := Scan.increasing_occurrences grammatical
  within span member := by
    rcases List.mem_append.mp member with replaced | reference
    · exact (replaceable_ofTree grammatical).within span replaced
    · obtain ⟨found, listed, rfl⟩ := List.mem_map.mp reference
      exact (Scan.stands_of_mem_artifactImports grammatical listed).within
  beside occurrence found statement listed kind := Scan.apart_of_mem grammatical found listed kind
  literal occurrence found := by
    obtain ⟨call, member, arguments, template, literal, rfl⟩ := Scan.exists_literalCall found
    refine ⟨call, member, arguments, template, literal, rfl, ?_⟩
    rw [String.toList_ofList]
    exact literal.templateBody_eq (grammatical.calls call member literal.isCall)

end SourceScan

/-- What a scan reports of a program that keeps the rules of the grammars is in order and apart, and can always be
rewritten. -/
theorem scan_rewritable (literals : Config.Literals) (dialect : Dialect) (text : String) (program : Tree)
    (grammatical : program.Grammatical text.toList) :
    (SourceScan.ofTree literals dialect text program).Sound program ∧
    ∀ artifacts outputDir,
      artifacts.length = (SourceScan.ofTree literals dialect text program).occurrences.length →
      ∃ result, (SourceScan.ofTree literals dialect text program).rewrite artifacts outputDir = .ok result := by
  refine ⟨SourceScan.sound_ofTree grammatical, fun artifacts outputDir counted => ?_⟩
  obtain ⟨result, applied⟩ := (SourceScan.replaceable_ofTree grammatical).exists_applyAll counted outputDir
  exact ⟨result, by rw [SourceScan.rewrite_of_counted counted, applied]; rfl⟩

/-- A script whose import renames the function, with a typed call and one inside another call. -/
def typedText : String := "#!n\nimport{gql as q}from'graphql-let';q<T>(\x60\\\x60\x60);f(q(\x60b\x60))"

def typedScan : SourceScan :=
  ⟨typedText, .typeScript, [⟨"\\\x60", ⟨38, 48⟩⟩, ⟨"b", ⟨51, 57⟩⟩], [⟨4, 38⟩], []⟩

theorem scan_rewritable_typed : typedScan.Sound (parse .typeScript typedText.toList) ∧
    ∃ result, typedScan.rewrite [⟨"ab", ⟨"/c/a.ts-ab.tsx"⟩⟩, ⟨"cd", ⟨"/c/a.ts-cd.tsx"⟩⟩] ⟨"/o"⟩ = .ok result := by
  have read : SourceScan.ofTree {} .typeScript typedText (parse .typeScript typedText.toList) = typedScan := by
    decide +kernel
  have grammatical := grammatical_parse .typeScript typedText.toList (by decide +kernel) (by decide +kernel)
  obtain ⟨sound, rewritten⟩ := scan_rewritable {} .typeScript typedText _ grammatical
  rw [read] at sound rewritten
  exact ⟨sound, rewritten _ _ rfl⟩

end TypedLiterals
