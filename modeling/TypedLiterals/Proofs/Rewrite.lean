import TypedLiterals.Proofs.Syntax.Comment
import TypedLiterals.Proofs.Syntax.Import
import TypedLiterals.Scan

/-!
What stands in a rewritten text, and how it is read.

Each call gives way to the name of a module. The name is read as it is exactly when no identifier goes on
behind the call. The imports of modules are read back from a text that begins with them and comments.
-/

namespace TypedLiterals

open Text (byteLength)
open Syntax

/-! ## The edits -/

namespace SourceScan

variable {scanned : SourceScan} {artifacts : List Artifact} {outputDir : Path} {result : String}

/-- The edits that put names in the place of calls. -/
def callEdits (scanned : SourceScan) (artifacts : List Artifact) : List Edit :=
  (scanned.occurrences.zip artifacts).map fun pair => ⟨pair.1.call, artifactName pair.2.hash⟩

/-- The imports that rewriting adds. -/
def importBlock (scanned : SourceScan) (artifacts : List Artifact) (outputDir : Path) : String :=
  "\n".intercalate ((newImports scanned.importedHashes artifacts).map (importLine outputDir))

/-- All edits of a rewriting. -/
def edits (scanned : SourceScan) (artifacts : List Artifact) (outputDir : Path) : List Edit :=
  scanned.callEdits artifacts ++ importEdits scanned (scanned.importBlock artifacts outputDir)

/-- Where an offset of a text comes to stand when it is rewritten. -/
def place (scanned : SourceScan) (artifacts : List Artifact) (outputDir : Path) (offset : Nat) : Nat :=
  Edit.moved 0 (Span.sortBy Edit.span (scanned.edits artifacts outputDir)) offset

theorem rewrite_eq_ok (rewritten : scanned.rewrite artifacts outputDir = .ok result) :
    artifacts.length = scanned.occurrences.length ∧
      Edit.applyAll scanned.text (scanned.edits artifacts outputDir) = .ok result := by
  unfold rewrite at rewritten
  split at rewritten
  · cases rewritten
  next counted =>
  refine ⟨by omega, ?_⟩
  cases applied : Edit.applyAll scanned.text (scanned.edits artifacts outputDir) with
  | error cause =>
      unfold edits callEdits importBlock at applied
      dsimp only at rewritten
      rw [applied] at rewritten
      cases rewritten
  | ok written =>
      unfold edits callEdits importBlock at applied
      dsimp only at rewritten
      rw [applied] at rewritten
      have same : written = result := Except.ok.inj rewritten
      rw [same]

theorem writes_of_rewrite (rewritten : scanned.rewrite artifacts outputDir = .ok result) :
    Edit.Writes 0 scanned.text.toList (Span.sortBy Edit.span (scanned.edits artifacts outputDir))
      result.toList :=
  Edit.writes_of_applyAll (rewrite_eq_ok rewritten).2

/-! ## Names -/

theorem isIdentifierPart_artifactName {hash : String}
    (hex : ∀ character ∈ hash.toList, Text.isHexDigit character = true) :
    ∀ character ∈ (artifactName hash).toList, isIdentifierPart character = true := by
  rw [artifactName, String.toList_append]
  intro character member
  rcases List.mem_append.mp member with first | rest
  · rw [List.mem_singleton.mp first]
    decide
  · exact isIdentifierPart_of_isHexDigit (hex character rest)

/-- In the place of each call stands the name of its module. The longest identifier that starts there is
this name exactly when the text behind the call begins with no character of an identifier. -/
theorem exists_name_iff (rewritten : scanned.rewrite artifacts outputDir = .ok result)
    {pair : Occurrence × Artifact} (listed : pair ∈ scanned.occurrences.zip artifacts)
    (hex : ∀ character ∈ pair.2.hash.toList, Text.isHexDigit character = true)
    (wide : pair.1.call.start < pair.1.call.stop)
    (free : ∀ edit ∈ scanned.edits artifacts outputDir, edit.span.start ≠ pair.1.call.stop) :
    ∃ front back ahead behind, result.toList = front ++ ((artifactName pair.2.hash).toList ++ back) ∧
      byteLength front = scanned.place artifacts outputDir pair.1.call.start ∧
      Text.splitAtByte? pair.1.call.stop scanned.text.toList = some (ahead, behind) ∧
      (behind.head? ≠ some '\\' →
        ((identifierRest 0 ((artifactName pair.2.hash).toList ++ back)).1 = (artifactName pair.2.hash).toList ↔
          ∀ character, behind.head? = some character → isIdentifierPart character = false)) := by
  have member : (⟨pair.1.call, artifactName pair.2.hash⟩ : Edit) ∈
      Span.sortBy Edit.span (scanned.edits artifacts outputDir) :=
    (Span.sortBy_perm Edit.span).mem_iff.mpr (List.mem_append_left _ (List.mem_map.mpr ⟨pair, listed, rfl⟩))
  obtain ⟨earlier, later, split⟩ := List.append_of_mem member
  obtain ⟨front, back, ahead, behind, written, offset, whole, place, rest⟩ :=
    (writes_of_rewrite rewritten).replaced split wide
  have next : back.head? = behind.head? := rest.head fun edit inside => free edit
    ((Span.sortBy_perm Edit.span).mem_iff.mp (by rw [split]; exact List.mem_append_right _ (List.mem_cons_of_mem _ inside)))
  rw [Nat.zero_add] at place
  refine ⟨front, back, ahead, behind, written, offset, by rw [whole, ← place, Text.splitAtByte?_append],
    fun plain => ?_⟩
  rw [identifierRest_append (isIdentifierPart_artifactName hex)]
  dsimp only
  rw [List.append_right_eq_self, ← next]
  exact identifierRest_eq_nil_iff (by rwa [next])

end SourceScan

/-! ## Imports -/

/-- The import of a generated module as it is written. -/
def Artifact.importOf (outputDir : Path) (artifact : Artifact) : NamespaceImport :=
  ⟨(artifactName artifact.hash).toList, (Path.specifier outputDir artifact.module moduleSuffix).toList⟩

/-- Whether the import of a generated module can be told from other imports: its fingerprint is hexadecimal,
and its module text ends in a dash and the fingerprint and holds no quote, backslash or line end. -/
structure Artifact.Telling (outputDir : Path) (artifact : Artifact) : Prop where
  present : artifact.hash.toList ≠ []
  hex : ∀ character ∈ artifact.hash.toList, Text.isHexDigit character = true
  ends : '-' :: artifact.hash.toList <:+ (Path.specifier outputDir artifact.module moduleSuffix).toList
  quiet : ∀ character ∈ (Path.specifier outputDir artifact.module moduleSuffix).toList,
    character ≠ '\x27' ∧ character ≠ '\x22' ∧ character ≠ '\\' ∧ character ≠ '\n' ∧ character ≠ '\r'

namespace Artifact

variable {outputDir : Path} {artifact : Artifact} {artifacts : List Artifact}

theorem specifier_importOf (outputDir : Path) (artifact : Artifact) :
    (artifact.importOf outputDir).specifier =
      (Path.specifier outputDir artifact.module moduleSuffix).toList := by
  rw [importOf]

theorem toList_artifactName (hash : String) : (artifactName hash).toList = 'V' :: hash.toList := by
  rw [artifactName, String.toList_append]
  rfl

theorem Telling.legible (telling : artifact.Telling outputDir) : (artifact.importOf outputDir).Legible where
  starts := ⟨'V', artifact.hash.toList, toList_artifactName artifact.hash, by decide⟩
  parts := SourceScan.isIdentifierPart_artifactName telling.hex
  quiet := by
    intro character member
    rw [specifier_importOf] at member
    exact ⟨(telling.quiet character member).1, (telling.quiet character member).2.2⟩

theorem Telling.hashOfName? (telling : artifact.Telling outputDir) :
    TypedLiterals.hashOfName? (String.ofList (artifact.importOf outputDir).name)
      (String.ofList (artifact.importOf outputDir).specifier) = some artifact.hash := by
  rw [importOf, String.ofList_toList, String.ofList_toList, TypedLiterals.hashOfName?, toList_artifactName]
  refine (if_pos ⟨telling.present, by rw [List.all_eq_true]; exact telling.hex,
    List.isSuffixOf_iff_suffix.mpr telling.ends⟩).trans ?_
  rw [String.ofList_toList]

theorem Telling.notQuote (telling : artifact.Telling outputDir) :
    ∀ character ∈ (artifact.importOf outputDir).specifier, Scan.isQuote character = false := by
  intro character member
  rw [specifier_importOf] at member
  obtain ⟨single, double, _⟩ := telling.quiet character member
  simp [Scan.isQuote, single, double]

theorem toList_importLine (outputDir : Path) (artifact : Artifact) :
    (importLine outputDir artifact).toList = (artifact.importOf outputDir).write [] := by
  simp [importLine, importOf, NamespaceImport.write, NamespaceImport.behindKeyword]

variable (outputDir) in
theorem writeAll_importOf (present : artifacts ≠ []) (rest : List Char) :
    NamespaceImport.writeAll rest (artifacts.map (importOf outputDir)) =
      ("\n".intercalate (artifacts.map (importLine outputDir))).toList ++ rest := by
  rw [String.toList_intercalate, List.map_map]
  induction artifacts with
  | nil => exact absurd rfl present
  | cons artifact artifacts ih =>
      cases artifacts with
      | nil =>
          rw [List.map_cons, List.map_nil, NamespaceImport.writeAll, NamespaceImport.write_eq_append,
            ← toList_importLine]
          simp
      | cons next artifacts =>
          have behind := ih (List.cons_ne_nil _ _)
          simp only [List.map_cons, Function.comp_apply] at behind ⊢
          rw [NamespaceImport.writeAll, NamespaceImport.write_eq_append, behind, ← toList_importLine,
            List.intercalate_cons_cons]
          simp

end Artifact

namespace Scan

variable {line : NamespaceImport} {front back : List Char} {program : Tree} {hash : String}

theorem withoutQuotes_of_quoted {inner : List Char} (plain : ∀ character ∈ inner, isQuote character = false) :
    withoutQuotes ('\x27' :: (inner ++ ['\x27'])) = inner := by
  have dropped : ∀ list : List Char, (∀ character ∈ list, isQuote character = false) →
      list.dropWhile isQuote = list := by
    intro list none
    cases list with
    | nil => rfl
    | cons first list => rw [List.dropWhile_cons_of_neg (by simp [none first List.mem_cons_self])]
  have quote : isQuote '\x27' = true := by decide
  rw [withoutQuotes, List.dropWhile_cons_of_pos quote]
  cases inner with
  | nil => rfl
  | cons first inner =>
      rw [List.cons_append, List.dropWhile_cons_of_neg (by simp [plain first List.mem_cons_self]),
        ← List.cons_append, List.reverse_append, List.reverse_singleton, List.singleton_append,
        List.dropWhile_cons_of_pos quote, dropped _ fun character member =>
          plain character (List.mem_reverse.mp member), List.reverse_reverse]

/-- A namespace import that binds the name of a module is found among the imports of generated modules. -/
theorem mem_artifactImports_of_write (plain : ∀ character ∈ line.specifier, isQuote character = false)
    (found : hashOfName? (String.ofList line.name) (String.ofList line.specifier) = some hash)
    (statement : line.tree (byteLength front) ∈ program.children) :
    ⟨hash, ⟨byteLength front, line.quoteEnd (byteLength front) + 1⟩⟩ ∈
      artifactImports (front ++ line.write back) program := by
  have name : Span.textIn ⟨byteLength front + 12, line.nameEnd (byteLength front)⟩ (front ++ line.write back) =
      line.name := by
    have split : front ++ line.write back = (front ++ "import * as ".toList) ++ (line.name ++
        (" from ".toList ++ ('\x27' :: (line.specifier ++ '\x27' :: ';' :: back)))) := by
      simp [NamespaceImport.write, NamespaceImport.behindKeyword]
    have start : byteLength front + 12 = byteLength (front ++ "import * as ".toList) := by
      rw [Text.byteLength_append]
      rfl
    rw [NamespaceImport.nameEnd, split, start]
    exact Span.textIn_middle _ _ _
  have quoted : Span.textIn ⟨line.nameEnd (byteLength front) + 6, line.quoteEnd (byteLength front)⟩
      (front ++ line.write back) = '\x27' :: (line.specifier ++ ['\x27']) := by
    have split : front ++ line.write back = (front ++ ("import * as ".toList ++ (line.name ++
        " from ".toList))) ++ (('\x27' :: (line.specifier ++ ['\x27'])) ++ ';' :: back) := by
      simp [NamespaceImport.write, NamespaceImport.behindKeyword]
    have start : line.nameEnd (byteLength front) + 6 = byteLength (front ++ ("import * as ".toList ++
        (line.name ++ " from ".toList))) := by
      rw [Text.byteLength_append, Text.byteLength_append, Text.byteLength_append, NamespaceImport.nameEnd]
      have first : byteLength "import * as ".toList = 12 := rfl
      have second : byteLength " from ".toList = 6 := rfl
      omega
    rw [NamespaceImport.quoteEnd, split, start]
    exact Span.textIn_middle _ _ _
  refine List.mem_filterMap.mpr ⟨(line.tree (byteLength front), String.ofList line.specifier), ?_, ?_⟩
  · refine List.mem_filterMap.mpr ⟨_, statement, ?_⟩
    simp only [NamespaceImport.tree, NamespaceImport.clause, Tree.kind, Tree.child?, Tree.children, Tree.role, Tree.leaf,
      Tree.textIn, Tree.span, if_true]
    simp [quoted, withoutQuotes_of_quoted plain]
  · have named : namespaceOf? (front ++ line.write back) (line.tree (byteLength front)) =
        some (String.ofList line.name) := by
      simp [namespaceOf?, NamespaceImport.tree, NamespaceImport.clause, Tree.children, Tree.namedChildren, Tree.isNamed,
        Tree.kind, Tree.leaf, Tree.textIn, Tree.span, name]
    rw [named, Option.bind_some, found]
    rfl

/-- Of namespace imports that a text begins with each one that binds the name of a module is found. -/
theorem exists_mem_artifactImports {lead rest : List Char} {lines : List NamespaceImport} (blank : Blank lead)
    (legible : ∀ line ∈ lines, line.Legible) (member : line ∈ lines)
    (plain : ∀ character ∈ line.specifier, isQuote character = false)
    (found : hashOfName? (String.ofList line.name) (String.ofList line.specifier) = some hash)
    (dialect : Dialect) :
    ∃ span, ⟨hash, span⟩ ∈ artifactImports (lead ++ NamespaceImport.writeAll rest lines)
      (parse dialect (lead ++ NamespaceImport.writeAll rest lines)) := by
  have nonempty := List.ne_nil_of_mem member
  obtain ⟨more, letter⟩ : ∃ more, NamespaceImport.writeAll rest lines = 'i' :: more := by
    obtain ⟨first, later, rfl⟩ := List.exists_cons_of_ne_nil nonempty
    obtain ⟨behind, begins, _⟩ := NamespaceImport.writeAll_cons first later rest
    exact ⟨_, begins⟩
  obtain ⟨progress, fuel, ready, here, enough, read⟩ := blank.exists_row dialect more
  have short := NamespaceImport.length_lt_writeAll nonempty rest
  rw [letter, List.length_cons] at short
  have bound : lines.length + 2 ≤ fuel := by omega
  have start : progress.cursor = ⟨byteLength lead, [] ++ NamespaceImport.writeAll rest lines⟩ := by
    rw [here, List.nil_append, letter]
  obtain ⟨front, behind, split, statement⟩ :=
    NamespaceImport.mem_row_of_writeAll (List.forall_mem_nil _) legible ready start bound member
  rw [List.nil_append] at split
  rw [← Text.byteLength_append] at statement
  have child : line.tree (byteLength (lead ++ front)) ∈
      (parse dialect (lead ++ NamespaceImport.writeAll rest lines)).children := by
    rw [letter, read, List.mem_reverse]
    exact statement
  have whole : lead ++ NamespaceImport.writeAll rest lines = (lead ++ front) ++ line.write behind := by
    rw [split, List.append_assoc]
  refine ⟨⟨byteLength (lead ++ front), line.quoteEnd (byteLength (lead ++ front)) + 1⟩, ?_⟩
  rw [whole] at child ⊢
  exact mem_artifactImports_of_write plain found child

end Scan

/-- The import lines of modules are read back from a text that begins with them. -/
theorem Artifact.mem_importedHashes_of_lines {lead back : List Char} {lines : List Artifact} {artifact : Artifact}
    {outputDir : Path} {text : String} (blank : Blank lead)
    (written : text.toList =
      lead ++ (("\n".intercalate (lines.map (importLine outputDir))).toList ++ back))
    (telling : ∀ artifact ∈ lines, artifact.Telling outputDir) (member : artifact ∈ lines)
    (literals : Config.Literals) (dialect : Dialect) :
    artifact.hash ∈ (SourceScan.ofTree literals dialect text (parse dialect text.toList)).importedHashes := by
  have legible : ∀ line ∈ lines.map (importOf outputDir), line.Legible := by
    intro line inside
    obtain ⟨artifact, listed, rfl⟩ := List.mem_map.mp inside
    exact (telling artifact listed).legible
  have known := telling artifact member
  obtain ⟨span, found⟩ := Scan.exists_mem_artifactImports blank legible (List.mem_map_of_mem member)
    known.notQuote known.hashOfName? dialect
  rw [writeAll_importOf _ (List.ne_nil_of_mem member) back, ← written] at found
  exact List.mem_map.mpr ⟨_, found, rfl⟩

namespace SourceScan

variable {scanned : SourceScan} {artifacts : List Artifact} {artifact : Artifact} {outputDir : Path}
  {result : String}

/-- Whether the calls and the spare imports of a scan cover some text each. -/
def Proper (scanned : SourceScan) : Prop :=
  ∀ span ∈ scanned.occurrences.map (·.call) ++ scanned.spareImports, span.start < span.stop

theorem mem_of_mem_newImports {imported : List String} (member : artifact ∈ newImports imported artifacts) :
    artifact ∈ artifacts := by
  induction artifacts generalizing imported with
  | nil => cases member
  | cons first artifacts ih =>
      rw [newImports] at member
      split at member
      · exact List.mem_cons_of_mem _ (ih member)
      · rcases List.mem_cons.mp member with rfl | inside
        · exact List.mem_cons_self
        · exact List.mem_cons_of_mem _ (ih inside)

variable (outputDir) in
/-- The edit that puts the new imports in their place. -/
theorem exists_importEdit (present : newImports scanned.importedHashes artifacts ≠ []) :
    ∃ edit tail, edit ∈ scanned.edits artifacts outputDir ∧
      edit.replacement.toList = (scanned.importBlock artifacts outputDir).toList ++ tail := by
  unfold edits importEdits
  cases spare : scanned.spareImports with
  | nil =>
      have filled : (scanned.importBlock artifacts outputDir).isEmpty = false := by
        rw [← Bool.not_eq_true, String.isEmpty_iff]
        intro empty
        have text := Artifact.writeAll_importOf outputDir present []
        rw [← importBlock, empty] at text
        cases new : newImports scanned.importedHashes artifacts with
        | nil => exact present new
        | cons first rest =>
            obtain ⟨behind, written, _⟩ := NamespaceImport.writeAll_cons
              (first.importOf outputDir) (rest.map (Artifact.importOf outputDir)) []
            rw [new, List.map_cons, written] at text
            cases text
      refine ⟨Edit.insertion (importOffset scanned.text.toList)
        (scanned.importBlock artifacts outputDir ++ "\n"), "\n".toList, ?_, ?_⟩
      · simp [filled]
      · simp [Edit.insertion, String.toList_append]
  | cons first rest => exact ⟨⟨first, scanned.importBlock artifacts outputDir⟩, [], by simp, by simp⟩

end SourceScan

/-! ## A small source -/

/-- A source with one call, and what is scanned in it. -/
def smallText : String := "import{gql}from'graphql-let';gql(\x60a\x60);"

def smallScan : SourceScan :=
  ⟨smallText, .javaScript, [⟨"a", ⟨29, 37⟩⟩], [⟨0, 29⟩], []⟩

def smallArtifact : Artifact := ⟨"ab12", ⟨"/c/a.js-ab12.tsx"⟩⟩

deriving instance DecidableEq for SourceScan

theorem smallScan_read : scan {} ⟨"a.js"⟩ smallText = .ok smallScan := by
  decide +kernel

theorem smallScan_rewritten :
    smallScan.rewrite [smallArtifact] ⟨"/o"⟩ = .ok "import * as Vab12 from '../c/a.js-ab12';Vab12;" := by
  decide +kernel

/-- A keyword right behind a call goes on with the name that is put in the place of the call. -/
theorem rewrite_merges_name :
    ∃ scanned result front back,
      scan {} ⟨"a.js"⟩ "import{gql}from'graphql-let';gql(\x60a\x60)in b" = .ok scanned ∧
        scanned.occurrences.map (·.call) = [⟨29, 37⟩] ∧
        scanned.rewrite [smallArtifact] ⟨"/o"⟩ = .ok result ∧
        result.toList = front ++ ((artifactName "ab12").toList ++ back) ∧
        byteLength front = scanned.place [smallArtifact] ⟨"/o"⟩ 29 ∧
        (identifierRest 0 ((artifactName "ab12").toList ++ back)).1 = "Vab12in".toList := by
  refine ⟨⟨"import{gql}from'graphql-let';gql(\x60a\x60)in b", .javaScript, [⟨"a", ⟨29, 37⟩⟩], [⟨0, 29⟩], []⟩,
    "import * as Vab12 from '../c/a.js-ab12';Vab12in b",
    "import * as Vab12 from '../c/a.js-ab12';".toList, "in b".toList, ?_⟩
  decide +kernel

end TypedLiterals
