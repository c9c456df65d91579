import TypedLiterals.Proofs.Generation.Update
import TypedLiterals.Proofs.Location
import TypedLiterals.Proofs.Reference
import TypedLiterals.Proofs.Specifier

/-!
Imports of generated modules are recognized.

The name that an import binds and the specifier that leads to the module tell the fingerprint, wherever the
module and the importing file are kept. No other import is taken for one. So what a source imports is never
stale, and is not imported again.
-/

namespace TypedLiterals

open Syntax

/-- Whether a text could be a fingerprint: hexadecimal digits, at least one. -/
structure Hexadecimal (hash : String) : Prop where
  present : hash.toList ≠ []
  digits : ∀ character ∈ hash.toList, Text.isHexDigit character = true

variable {ident specifier hash text root source : String} {outputDir declarationDir cacheDir workingDir : Path}
  {artifact : Artifact} {scanned : SourceScan}

theorem hashOfName?_eq_some_iff :
    hashOfName? ident specifier = some hash ↔
      ident = artifactName hash ∧ Hexadecimal hash ∧ '-' :: hash.toList <:+ specifier.toList := by
  constructor
  · intro found
    unfold hashOfName? at found
    split at found
    · next digits named =>
      split at found
      · next known =>
        obtain ⟨present, hex, ends⟩ := known
        cases Option.some.inj found
        refine ⟨?_, ⟨by simpa using present, by simpa using hex⟩, ?_⟩
        · rw [← String.toList_inj, Artifact.toList_artifactName, named, String.toList_ofList]
        · rw [String.toList_ofList]
          exact List.isSuffixOf_iff_suffix.mp ends
      · cases found
    · cases found
  · rintro ⟨rfl, hex, ends⟩
    unfold hashOfName?
    rw [Artifact.toList_artifactName]
    refine (if_pos ⟨hex.present, List.all_eq_true.mpr hex.digits, List.isSuffixOf_iff_suffix.mpr ends⟩).trans ?_
    rw [String.ofList_toList]

theorem Hexadecimal.plain (hex : Hexadecimal hash) : ∀ character ∈ hash.toList, character ≠ '/' ∧ character ≠ '\\' := by
  intro character member
  have digit := hex.digits character member
  constructor <;> (rintro rfl; exact absurd digit (by decide))

/-- The module of a literal stands under a name that ends in a dash, the fingerprint and the module suffix. -/
theorem Location.exists_components_module (hex : Hexadecimal hash) (logical : String)
    (declarationDir cacheDir workingDir : Path) :
    ∃ before stem, (Location.ofLiteral logical hash declarationDir cacheDir workingDir).module.components =
      before ++ [.name (String.ofList (stem ++ ('-' :: hash.toList ++ moduleSuffix.toList)))] := by
  obtain ⟨front, stem, split⟩ := Path.exists_extendLast (ending hash moduleSuffix) (Path.slashPieces logical)
  have names : Disk.pathNames (Location.ofLiteral logical hash declarationDir cacheDir workingDir).module.text =
      (Disk.pathNames cacheDir.text ++ front.map String.ofList) ++
        [String.ofList (stem ++ ending hash moduleSuffix)] := by
    rw [ofLiteral, Path.pathNames_joinSlashed, pathNames_artifactStem _ hex.present hex.plain isSuffix_module,
      fileNames, split, List.map_append, List.map_singleton, List.append_assoc]
  -- A name that ends in the suffix is longer than a step up.
  have long : 2 < (stem ++ ending hash moduleSuffix).length := by
    rw [List.length_append, ending, List.length_cons, List.length_append]
    have suffix : moduleSuffix.toList.length = 4 := by decide
    omega
  have named : Path.isVoid (stem ++ ending hash moduleSuffix) = false := by
    rw [Path.isVoid, Bool.or_eq_false_iff, decide_eq_false_iff_not, decide_eq_false_iff_not]
    constructor <;> intro same <;> rw [same] at long <;> exact absurd long (by decide)
  obtain ⟨before, components⟩ := Path.exists_components_concat names (by rwa [String.toList_ofList])
  refine ⟨before, stem, ?_⟩
  rw [components, String.toList_ofList, Path.pieceComponent, if_neg, ending, List.cons_append]
  intro up
  rw [up] at long
  exact absurd long (by decide)

theorem Location.suffix_specifier_module (hex : Hexadecimal hash) {logical : String}
    (outside : ¬ (Location.ofLiteral logical hash declarationDir cacheDir workingDir).module.components <+:
      outputDir.components) :
    '-' :: hash.toList <:+ (Path.specifier outputDir
      (Location.ofLiteral logical hash declarationDir cacheDir workingDir).module moduleSuffix).toList := by
  obtain ⟨before, stem, components⟩ :=
    exists_components_module hex logical declarationDir cacheDir workingDir
  obtain ⟨front, between⟩ := Path.exists_stepsBetween components outside
  exact Path.suffix_specifier (by rw [between, Path.Component.text, String.toList_ofList])

/-- Whether an artifact is where the module of a literal is generated, and a directory lies outside of it. -/
structure Artifact.Emitted (outputDir : Path) (artifact : Artifact) : Prop where
  hex : Hexadecimal artifact.hash
  outside : ¬ artifact.module.components <+: outputDir.components
  derived : ∃ root source declarationDir cacheDir workingDir, artifact.module =
    (Location.ofLiteral (sourceBelow root source) artifact.hash declarationDir cacheDir workingDir).module

namespace Artifact

theorem Emitted.ends (emitted : artifact.Emitted outputDir) :
    '-' :: artifact.hash.toList <:+ (Path.specifier outputDir artifact.module moduleSuffix).toList := by
  obtain ⟨root, source, declarationDir, cacheDir, workingDir, derived⟩ := emitted.derived
  have outside := emitted.outside
  rw [derived] at outside ⊢
  exact Location.suffix_specifier_module emitted.hex outside

end Artifact

/-! ## Sources with such imports -/

namespace SourceScan

/-- Whether the import of a fingerprint is respected: no plan for the source lists the fingerprint as stale,
and no rewriting adds an import for it. -/
structure Respects (scanned : SourceScan) (hash : String) : Prop where
  kept : ∀ project seed source partition, hash ∉ (Plan.ofScan project seed source scanned partition).stale
  once : ∀ artifacts outputDir result, scanned.rewrite artifacts outputDir = .ok result →
    ∃ new : List Artifact, (∀ artifact ∈ new, artifact ∈ artifacts ∧ artifact.hash ≠ hash) ∧
      Edit.applyAll scanned.text (scanned.callEdits artifacts ++
        importEdits scanned ("\n".intercalate (new.map (importLine outputDir)))) = .ok result

theorem hash_notMem_of_mem_newImports {imported : List String} {artifacts : List Artifact}
    (member : artifact ∈ newImports imported artifacts) : artifact.hash ∉ imported := by
  induction artifacts generalizing imported with
  | nil => cases member
  | cons first rest ih =>
      rw [newImports] at member
      split at member
      · exact ih member
      · next unknown =>
        rcases List.mem_cons.mp member with rfl | later
        · simpa using unknown
        · exact fun known => ih later (List.mem_cons_of_mem _ known)

theorem respects_of_mem (imported : hash ∈ scanned.importedHashes) : scanned.Respects hash where
  kept := fun project seed source partition stale =>
    (Run.mem_stale.mp stale).2 (List.mem_append_right _ imported)
  once := fun artifacts outputDir result rewritten => by
    refine ⟨newImports scanned.importedHashes artifacts, fun artifact member => ⟨mem_of_mem_newImports member, ?_⟩,
      (rewrite_eq_ok rewritten).2⟩
    rintro rfl
    exact hash_notMem_of_mem_newImports member imported

/-- The fingerprints that a source imports are those of the namespace imports that tell one. -/
theorem mem_importedHashes_ofTree_iff {literals : Config.Literals} {dialect : Dialect} {program : Tree} :
    hash ∈ (ofTree literals dialect text program).importedHashes ↔
      ∃ statement specifier, (statement, specifier) ∈ Scan.imports text.toList program ∧
        Scan.namespaceOf? text.toList statement = some (artifactName hash) ∧
        Hexadecimal hash ∧ '-' :: hash.toList <:+ specifier.toList := by
  constructor
  · intro imported
    obtain ⟨found, member, rfl⟩ := List.mem_map.mp imported
    obtain ⟨⟨statement, specifier⟩, listed, told⟩ := List.mem_filterMap.mp member
    obtain ⟨ident, named, told⟩ := Option.bind_eq_some_iff.mp told
    obtain ⟨hash, known, rfl⟩ := Option.map_eq_some_iff.mp told
    obtain ⟨rfl, hex, ends⟩ := hashOfName?_eq_some_iff.mp known
    exact ⟨statement, specifier, listed, named, hex, ends⟩
  · rintro ⟨statement, specifier, listed, named, hex, ends⟩
    have refers : Scan.Refers text.toList program statement hash specifier :=
      ⟨listed, _, named, hashOfName?_eq_some_iff.mpr ⟨rfl, hex, ends⟩⟩
    exact List.mem_map.mpr ⟨_, refers.mem_artifactImports, rfl⟩

end SourceScan

namespace Artifact

/-- Whether the specifier of a module can stand between quotes. -/
def Quiet (outputDir : Path) (artifact : Artifact) : Prop :=
  ∀ character ∈ (Path.specifier outputDir artifact.module moduleSuffix).toList,
    character ≠ '\x27' ∧ character ≠ '\x22' ∧ character ≠ '\\' ∧ character ≠ '\n' ∧ character ≠ '\r'

theorem Emitted.telling (emitted : artifact.Emitted outputDir) (quiet : artifact.Quiet outputDir) :
    artifact.Telling outputDir :=
  ⟨emitted.hex.present, emitted.hex.digits, emitted.ends, quiet⟩

end Artifact

/-- The import of a generated module is recognized wherever the module and the importing file are kept, unless
the file lies below the module, and what is recognized has the form of such an import. A source that begins with
such imports, or holds them anywhere as its tree has them, is planned and rewritten with respect to them. -/
theorem module_imports_recognized :
    (∀ root source hash declarationDir cacheDir workingDir outputDir, Hexadecimal hash →
      let module := (Location.ofLiteral (sourceBelow root source) hash declarationDir cacheDir workingDir).module
      ¬ module.components <+: outputDir.components →
      hashOfName? (artifactName hash) (Path.specifier outputDir module moduleSuffix) = some hash) ∧
    (∀ ident specifier hash, hashOfName? ident specifier = some hash →
      ident = artifactName hash ∧ Hexadecimal hash ∧ '-' :: hash.toList <:+ specifier.toList) ∧
    (∀ literals dialect text program statement outputDir (artifact : Artifact), artifact.Emitted outputDir →
      (statement, Path.specifier outputDir artifact.module moduleSuffix) ∈ Scan.imports text.toList program →
      Scan.namespaceOf? text.toList statement = some (artifactName artifact.hash) →
      (SourceScan.ofTree literals dialect text program).Respects artifact.hash) ∧
    ∀ literals path text scanned lead back outputDir (artifacts : List Artifact),
      scan literals path text = .ok scanned → Blank lead →
      text.toList = lead ++ (("\n".intercalate (artifacts.map (importLine outputDir))).toList ++ back) →
      (∀ artifact ∈ artifacts, artifact.Emitted outputDir ∧ artifact.Quiet outputDir) →
      ∀ artifact ∈ artifacts, scanned.Respects artifact.hash := by
  refine ⟨?_, ?_, ?_, ?_⟩
  · intro root source hash declarationDir cacheDir workingDir outputDir hex module outside
    exact hashOfName?_eq_some_iff.mpr ⟨rfl, hex, Location.suffix_specifier_module hex outside⟩
  · exact fun ident specifier hash found => hashOfName?_eq_some_iff.mp found
  · intro literals dialect text program statement outputDir artifact emitted listed named
    exact SourceScan.respects_of_mem (SourceScan.mem_importedHashes_ofTree_iff.mpr
      ⟨statement, _, listed, named, emitted.hex, emitted.ends⟩)
  · intro literals path text scanned lead back outputDir artifacts read blank written emitted artifact member
    obtain ⟨dialect, rfl⟩ := exists_of_scan read
    exact SourceScan.respects_of_mem (Artifact.mem_importedHashes_of_lines blank written
      (fun other listed => (emitted other listed).1.telling (emitted other listed).2) member literals dialect)

/-- A module of a source with dots and dashes in its name. -/
def dottedModule : Path :=
  (Location.ofLiteral (sourceBelow "t-1.d" "a-b/c.d.tsx") "0f" ⟨"d"⟩ ⟨"/p/.cache"⟩ ⟨"/p"⟩).module

/-- A text that imports the module from a directory written with a step up. -/
def dottedText : String := "#!node\nimport * as V0f from '../../../.cache/t-1.d/a-b/c.d.tsx-0f';\nV0f;"

theorem dottedModule_specifier :
    Path.specifier ⟨"/p/src/../x"⟩ dottedModule moduleSuffix = "../../../.cache/t-1.d/a-b/c.d.tsx-0f" ∧
      ¬ dottedModule.components <+: Path.components ⟨"/p/src/../x"⟩ ∧
      dottedText.toList = "#!node\n".toList ++
        (("\n".intercalate ([⟨"0f", dottedModule⟩].map (importLine ⟨"/p/src/../x"⟩))).toList ++ "\nV0f;".toList) := by
  decide +kernel

theorem dottedText_imports :
    ∃ pair ∈ Scan.imports dottedText.toList (parse .typeScript dottedText.toList),
      pair.2 = "../../../.cache/t-1.d/a-b/c.d.tsx-0f" ∧
        Scan.namespaceOf? dottedText.toList pair.1 = some (artifactName "0f") := by
  decide +kernel

theorem module_imports_recognized_dotted :
    hashOfName? (artifactName "0f") (Path.specifier ⟨"/p/src/../x"⟩ dottedModule moduleSuffix) = some "0f" ∧
    (Hexadecimal "0f" ∧
      '-' :: "0f".toList <:+ (Path.specifier ⟨"/p/src/../x"⟩ dottedModule moduleSuffix).toList) ∧
    (SourceScan.ofTree {} .typeScript dottedText (parse .typeScript dottedText.toList)).Respects "0f" ∧
    ∃ scanned, scan {} ⟨"b.ts"⟩ dottedText = .ok scanned ∧ scanned.Respects "0f" := by
  obtain ⟨recognized, told, inTree, inText⟩ := module_imports_recognized
  obtain ⟨specifier, outside, split⟩ := dottedModule_specifier
  have hex : Hexadecimal "0f" := ⟨by decide, List.forall_iff_forall_mem.mp (by decide)⟩
  have found := recognized "t-1.d" "a-b/c.d.tsx" "0f" ⟨"d"⟩ ⟨"/p/.cache"⟩ ⟨"/p"⟩ ⟨"/p/src/../x"⟩ hex outside
  have emitted : (⟨"0f", dottedModule⟩ : Artifact).Emitted ⟨"/p/src/../x"⟩ :=
    ⟨hex, outside, "t-1.d", "a-b/c.d.tsx", ⟨"d"⟩, ⟨"/p/.cache"⟩, ⟨"/p"⟩, rfl⟩
  have quiet : (⟨"0f", dottedModule⟩ : Artifact).Quiet ⟨"/p/src/../x"⟩ := by
    rw [Artifact.Quiet, specifier]
    exact List.forall_iff_forall_mem.mp (by decide)
  have blank : Blank "#!node\n".toList := by
    unfold Blank
    decide +kernel
  have dialect : Dialect.ofPath? ⟨"b.ts"⟩ = some .typeScript := by decide
  obtain ⟨scanned, read⟩ : ∃ scanned, scan {} ⟨"b.ts"⟩ dottedText = .ok scanned := by
    rw [scan, dialect]
    exact ⟨_, rfl⟩
  obtain ⟨⟨statement, _⟩, listed, rfl, named⟩ := dottedText_imports
  rw [← specifier] at listed
  exact ⟨found, (told _ _ _ found).2, inTree {} .typeScript _ _ _ _ _ emitted listed named, scanned, read,
    inText {} ⟨"b.ts"⟩ dottedText scanned _ _ _ _ read blank split
      (List.forall_mem_singleton.mpr ⟨emitted, quiet⟩) _ List.mem_cons_self⟩

end TypedLiterals
