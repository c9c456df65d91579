import Mathlib.Data.List.TakeWhile
import TypedLiterals.Proofs.Edit.Batch
import TypedLiterals.Proofs.FirstOfEach
import TypedLiterals.Proofs.Rewrite

/-!
Which text rewriting writes.

When calls and spare imports are apart, a rewriting fails only for want of artifacts. Otherwise it puts a name in
the place of each call and the new imports in theirs, takes the spare imports away, and keeps all other text.
-/

namespace TypedLiterals

open Text (byteLength)

/-! ## A leading hashbang line -/

/-- Whether a leading hashbang line of a text ends at an offset, which is the start of a text without one. -/
inductive HashbangEnd : List Char → Nat → Prop
  | none {text : List Char} : ¬ ['#', '!'] <+: text → HashbangEnd text 0
  | line {line rest : List Char} : ['#', '!'] <+: line → '\n' ∉ line →
      HashbangEnd (line ++ '\n' :: rest) (byteLength line + 1)
  | last {text : List Char} : ['#', '!'] <+: text → '\n' ∉ text → HashbangEnd text (byteLength text)

namespace HashbangEnd

variable {text line rest : List Char} {offset : Nat}

theorem importOffset_of_none (plain : ¬ ['#', '!'] <+: text) : importOffset text = 0 := by
  unfold importOffset
  split
  · next rest => exact absurd ⟨rest, rfl⟩ plain
  · rfl

theorem importOffset_of_hashbang (hashbang : ['#', '!'] <+: text) :
    importOffset text = byteLength (text.takeWhile (· ≠ '\n')) + if text.contains '\n' then 1 else 0 := by
  obtain ⟨rest, rfl⟩ := hashbang
  rfl

theorem takeWhile_of_notMem (plain : '\n' ∉ line) : line.takeWhile (· ≠ '\n') = line :=
  List.takeWhile_eq_self_iff.mpr fun character member => by
    simpa using fun same : character = '\n' => plain (same ▸ member)

theorem importOffset_eq (ends : HashbangEnd text offset) : importOffset text = offset := by
  cases ends with
  | none plain => exact importOffset_of_none plain
  | @line line rest hashbang plain =>
      rw [importOffset_of_hashbang (hashbang.trans (List.prefix_append _ _)), List.takeWhile_append_of_pos
        (List.takeWhile_eq_self_iff.mp (takeWhile_of_notMem plain))]
      simp
  | last hashbang plain =>
      rw [importOffset_of_hashbang hashbang, takeWhile_of_notMem plain, if_neg (by simpa using plain), Nat.add_zero]

theorem of_importOffset (text : List Char) : HashbangEnd text (importOffset text) := by
  by_cases hashbang : ['#', '!'] <+: text
  · by_cases broken : '\n' ∈ text
    · obtain ⟨line, rest, rfl, plain⟩ := List.eq_append_cons_of_mem broken
      have lineHashbang : ['#', '!'] <+: line := by
        obtain ⟨more, same⟩ := hashbang
        rcases line with _ | ⟨first, _ | ⟨second, line⟩⟩
        · simp at same
        · simp at same
        · cases same
          exact ⟨line, rfl⟩
      have ends := @HashbangEnd.line line rest lineHashbang plain
      rwa [← ends.importOffset_eq] at ends
    · have ends := HashbangEnd.last hashbang broken
      rwa [← ends.importOffset_eq] at ends
  · have ends := HashbangEnd.none hashbang
    rwa [← ends.importOffset_eq] at ends

theorem within (ends : HashbangEnd text offset) : Span.Within ⟨offset, offset⟩ text := by
  obtain ⟨front, back, rfl, length⟩ : ∃ front back, text = front ++ back ∧ byteLength front = offset := by
    cases ends with
    | none => exact ⟨[], _, rfl, rfl⟩
    | @line line rest => exact ⟨line ++ ['\n'], rest, by simp, by rw [Text.byteLength_append]; rfl⟩
    | last => exact ⟨_, [], (List.append_nil _).symm, rfl⟩
  exact @Span.within_of_parts _ front [] back length rfl

end HashbangEnd

namespace SourceScan

variable {scanned : SourceScan} {artifacts : List Artifact} {outputDir : Path} {block : String} {span : Span}
  {edits : List Edit}

/-- The calls and the spare imports. -/
def ranges (scanned : SourceScan) : List Span :=
  scanned.occurrences.map (·.call) ++ scanned.spareImports

/-- Whether the calls and the spare imports of a scan can be replaced: each covers some text and cuts no
character, no two share text, and none goes on behind a leading hashbang line that it begins in. -/
structure Replaceable (scanned : SourceScan) : Prop where
  proper : scanned.Proper
  within : ∀ span ∈ scanned.ranges, span.Within scanned.text.toList
  apart : scanned.ranges.Pairwise fun first second => first.stop ≤ second.start ∨ second.stop ≤ first.start
  beside : ∀ offset, HashbangEnd scanned.text.toList offset →
    ∀ span ∈ scanned.ranges, span.stop ≤ offset ∨ offset ≤ span.start

/-- How a block of imports is put into a source: in the place of the first spare import while the others go, or
before everything but a leading hashbang line when there is no spare import and the block is not empty. -/
inductive PlacesImports (scanned : SourceScan) (block : String) : List Edit → Prop
  | replaced {first : Span} {rest : List Span} : scanned.spareImports = first :: rest →
      PlacesImports scanned block (⟨first, block⟩ :: rest.map fun span => ⟨span, ""⟩)
  | inserted {offset : Nat} : scanned.spareImports = [] → block ≠ "" →
      HashbangEnd scanned.text.toList offset →
      PlacesImports scanned block [⟨⟨offset, offset⟩, block ++ "\n"⟩]
  | absent : scanned.spareImports = [] → block = "" → PlacesImports scanned block []

theorem placesImports_importEdits (scanned : SourceScan) (block : String) :
    scanned.PlacesImports block (importEdits scanned block) := by
  unfold importEdits
  cases spare : scanned.spareImports with
  | cons first rest => exact .replaced spare
  | nil =>
      by_cases empty : block = ""
      · rw [if_pos (String.isEmpty_iff.mpr empty)]
        exact .absent spare empty
      · rw [if_neg fun filled => empty (String.isEmpty_iff.mp filled)]
        exact .inserted spare empty (.of_importOffset _)

/-- The stretches of a rewriting: the ranges, and the place of the imports where these are inserted. -/
theorem spans_of_placesImports (places : scanned.PlacesImports block edits) :
    edits.map Edit.span = scanned.spareImports ∨ ∃ offset, HashbangEnd scanned.text.toList offset ∧
      edits.map Edit.span = scanned.spareImports ++ [⟨offset, offset⟩] := by
  cases places with
  | replaced spare => exact .inl (by simp [spare, Function.comp_def])
  | inserted spare _ ends => exact .inr ⟨_, ends, by simp [spare]⟩
  | absent spare => exact .inl (by simp [spare])

theorem spans_callEdits (counted : artifacts.length = scanned.occurrences.length) :
    (scanned.callEdits artifacts).map Edit.span = scanned.occurrences.map (·.call) := by
  have calls : (scanned.callEdits artifacts).map Edit.span =
      ((scanned.occurrences.zip artifacts).map Prod.fst).map (·.call) := by
    rw [callEdits, List.map_map, List.map_map]
    rfl
  rw [calls, List.map_fst_zip counted.ge]

theorem Replaceable.not_overlaps (replaceable : scanned.Replaceable) :
    scanned.ranges.Pairwise fun first second => ¬ first.Overlaps second :=
  replaceable.apart.imp fun apart overlaps => by
    obtain ⟨left, right⟩ := overlaps
    omega

theorem Replaceable.exists_applyAll (replaceable : scanned.Replaceable)
    (counted : artifacts.length = scanned.occurrences.length) (outputDir : Path) :
    ∃ result, Edit.applyAll scanned.text (scanned.edits artifacts outputDir) = .ok result := by
  have spans : (scanned.edits artifacts outputDir).map Edit.span = scanned.ranges ∨
      ∃ offset, HashbangEnd scanned.text.toList offset ∧
        (scanned.edits artifacts outputDir).map Edit.span = scanned.ranges ++ [⟨offset, offset⟩] := by
    rw [edits, List.map_append, spans_callEdits counted, ranges]
    obtain same | ⟨offset, ends, same⟩ := spans_of_placesImports
      (placesImports_importEdits scanned (scanned.importBlock artifacts outputDir))
    · exact .inl (by rw [same])
    · exact .inr ⟨offset, ends, by rw [same, List.append_assoc]⟩
  have fits : (∀ span ∈ (scanned.edits artifacts outputDir).map Edit.span, span.Within scanned.text.toList) ∧
      ((scanned.edits artifacts outputDir).map Edit.span).Pairwise fun first second => ¬ first.Overlaps second := by
    obtain same | ⟨offset, ends, same⟩ := spans
    · rw [same]
      exact ⟨replaceable.within, replaceable.not_overlaps⟩
    · rw [same]
      refine ⟨List.forall_mem_append.mpr ⟨replaceable.within, List.forall_mem_singleton.mpr ends.within⟩,
        List.pairwise_append.mpr ⟨replaceable.not_overlaps, List.pairwise_singleton _ _, ?_⟩⟩
      rintro span member place inside ⟨left, right⟩
      rw [List.mem_singleton.mp inside] at left right
      have beside := replaceable.beside offset ends span member
      dsimp only at left right
      omega
  exact Edit.exists_applyAll_iff.mpr ⟨List.forall_mem_map.mp fits.1, List.pairwise_map.mp fits.2⟩

theorem rewrite_of_counted (counted : artifacts.length = scanned.occurrences.length) (outputDir : Path) :
    scanned.rewrite artifacts outputDir =
      (Edit.applyAll scanned.text (scanned.edits artifacts outputDir)).mapError .edit :=
  if_neg (not_not.mpr counted)

theorem rewrite_eq_artifactCount_iff {expected actual : Nat} :
    scanned.rewrite artifacts outputDir = .error (.artifactCount expected actual) ↔
      artifacts.length ≠ scanned.occurrences.length ∧ expected = scanned.occurrences.length ∧
        actual = artifacts.length := by
  by_cases counted : artifacts.length = scanned.occurrences.length
  · rw [rewrite_of_counted counted]
    cases Edit.applyAll scanned.text (scanned.edits artifacts outputDir) <;> simp [Except.mapError, counted]
  · rw [rewrite, if_pos counted]
    simp [counted, eq_comm]

end SourceScan

/-- A rewriting fails for want of artifacts when there is not one for each call. Otherwise it puts the name of its
module in the place of each call and one import for each fingerprint that is not imported, in the order of their
first uses, where imports go, and all other text stays as it is. -/
theorem rewrite_exact {scanned : SourceScan} (replaceable : scanned.Replaceable) (artifacts : List Artifact)
    (outputDir : Path) :
    (∀ expected actual, scanned.rewrite artifacts outputDir = .error (.artifactCount expected actual) ↔
      artifacts.length ≠ scanned.occurrences.length ∧ expected = scanned.occurrences.length ∧
        actual = artifacts.length) ∧
    (artifacts.length = scanned.occurrences.length → ∃ result fresh imports edits,
      scanned.rewrite artifacts outputDir = .ok result ∧
      FirstOfEach (·.hash) (artifacts.filter (·.hash ∉ scanned.importedHashes)) fresh ∧
      scanned.PlacesImports ("\n".intercalate (fresh.map (importLine outputDir))) imports ∧
      edits.Perm (List.zipWith (fun occurrence artifact => ⟨occurrence.call, "V" ++ artifact.hash⟩)
        scanned.occurrences artifacts ++ imports) ∧
      Edit.Writes 0 scanned.text.toList edits result.toList) := by
  refine ⟨fun expected actual => SourceScan.rewrite_eq_artifactCount_iff, fun counted => ?_⟩
  obtain ⟨result, applied⟩ := replaceable.exists_applyAll counted outputDir
  refine ⟨result, newImports scanned.importedHashes artifacts, _, _, ?_, firstOfEach_newImports _ artifacts,
    SourceScan.placesImports_importEdits scanned _, ?_, Edit.applyAll_eq_ok_iff.mp applied⟩
  · rw [SourceScan.rewrite_of_counted counted, applied]
    rfl
  · refine (Span.sortBy_perm Edit.span).trans (.of_eq ?_)
    rw [SourceScan.edits, SourceScan.callEdits, List.map_zip_eq_zipWith]
    rfl

/-- A script with three calls of two literals. -/
def scriptScan : SourceScan :=
  ⟨"#!n\ngql(\x60a\x60);gql(\x60b\x60);gql(\x60a\x60)", .javaScript,
    [⟨"a", ⟨4, 12⟩⟩, ⟨"b", ⟨13, 21⟩⟩, ⟨"a", ⟨22, 30⟩⟩], [], []⟩

def scriptArtifacts : List Artifact :=
  [⟨"a1", ⟨"/o/a.js-a1.tsx"⟩⟩, ⟨"b1", ⟨"/o/a.js-b1.tsx"⟩⟩, ⟨"a1", ⟨"/o/a.js-a1.tsx"⟩⟩]

def scriptText : String :=
  "#!n\nimport * as Va1 from './a.js-a1';\nimport * as Vb1 from './a.js-b1';\nVa1;Vb1;Va1"

theorem scriptScan_replaceable : scriptScan.Replaceable where
  proper := by
    unfold SourceScan.Proper
    decide
  within := by
    have fits : ∀ span ∈ scriptScan.ranges, span.fits scriptScan.text.toList = true := by decide
    exact fun span member => Span.fits_iff.mp (fits span member)
  apart := by decide
  beside := by
    intro offset ends
    rw [← ends.importOffset_eq]
    decide

theorem rewrite_exact_script :
    (∀ expected actual, scriptScan.rewrite [] ⟨"/o"⟩ = .error (.artifactCount expected actual) ↔
      expected = 3 ∧ actual = 0) ∧
    ∃ fresh imports edits, FirstOfEach (·.hash) scriptArtifacts fresh ∧
      scriptScan.PlacesImports ("\n".intercalate (fresh.map (importLine ⟨"/o"⟩))) imports ∧
      edits.Perm ([⟨⟨4, 12⟩, "Va1"⟩, ⟨⟨13, 21⟩, "Vb1"⟩, ⟨⟨22, 30⟩, "Va1"⟩] ++ imports) ∧
      Edit.Writes 0 scriptScan.text.toList edits scriptText.toList := by
  constructor
  · intro expected actual
    rw [(rewrite_exact scriptScan_replaceable [] ⟨"/o"⟩).1]
    simp [scriptScan]
  · obtain ⟨result, fresh, imports, edits, rewritten, firsts, places, same, writes⟩ :=
      (rewrite_exact scriptScan_replaceable scriptArtifacts ⟨"/o"⟩).2 rfl
    have known : scriptScan.rewrite scriptArtifacts ⟨"/o"⟩ = .ok scriptText := by decide +kernel
    obtain rfl : result = scriptText := Except.ok.inj (rewritten.symm.trans known)
    exact ⟨fresh, imports, edits, firsts, places, same, writes⟩

end TypedLiterals
