import TypedLiterals.Dialect
import TypedLiterals.Edit
import TypedLiterals.Location
import TypedLiterals.Text.Character

/-!
Rewriting a source so that its literal calls refer to generated modules.

Every call becomes an identifier named after the fingerprint of its literal, and one namespace import
is added for each fingerprint that the source does not import already.
-/

namespace TypedLiterals

/-- A literal call. -/
structure Occurrence where
  /-- The text between the backticks, as written. -/
  literal : String
  call : Span
deriving DecidableEq, Repr

/-- An import of a generated module that an earlier rewrite left behind. -/
structure ArtifactImport where
  hash : String
  statement : Span
deriving DecidableEq, Repr

/-- What a scan finds in a source. -/
structure SourceScan where
  text : String
  dialect : Dialect
  /-- Literal calls in order of position. -/
  occurrences : List Occurrence
  /-- Import statements that bind nothing but literal functions. -/
  spareImports : List Span
  artifactImports : List ArtifactImport
deriving Repr

/-- The generated module that a call will refer to. -/
structure Artifact where
  hash : String
  module : Path
deriving DecidableEq, Repr

/-- Why a source could not be rewritten. -/
inductive Rewrite.Error where
  | artifactCount (expected actual : Nat)
  | edit (cause : Edit.Error)
deriving DecidableEq, Repr

/-- The text shown when a source cannot be rewritten. -/
def Rewrite.Error.message : Rewrite.Error → String
  | artifactCount expected actual => s!"expected {expected} artifact references, got {actual}"
  | edit cause => cause.message

/-- The identifier that names the module generated for a fingerprint. -/
def artifactName (hash : String) : String :=
  "V" ++ hash

/-- The fingerprint that an import names, when it binds an artifact name to a module path that
ends in a dash and the same fingerprint. -/
def hashOfName? (ident specifier : String) : Option String :=
  match ident.toList with
  | 'V' :: hash =>
    if hash ≠ [] ∧ hash.all Text.isHexDigit ∧ ('-' :: hash).isSuffixOf specifier.toList then
      some (String.ofList hash)
    else none
  | _ => none

namespace SourceScan

/-- The hashes that a source already imports. -/
def importedHashes (scanned : SourceScan) : List String :=
  scanned.artifactImports.map (·.hash)

end SourceScan

/-- The import statement for one generated module. -/
def importLine (outputDir : Path) (artifact : Artifact) : String :=
  String.join ["import * as ", artifactName artifact.hash, " from '",
    Path.specifier outputDir artifact.module moduleSuffix, "';"]

/-- The artifacts whose fingerprints are not among `imported`, each fingerprint once. -/
def newImports (imported : List String) : List Artifact → List Artifact
  | [] => []
  | artifact :: rest =>
    if imported.contains artifact.hash then newImports imported rest
    else artifact :: newImports (artifact.hash :: imported) rest

/-- The offset behind a leading hashbang line, where imports may stand. -/
def importOffset (text : List Char) : Nat :=
  match text with
  | '#' :: '!' :: _ =>
    Text.byteLength (text.takeWhile (· ≠ '\n')) + (if text.contains '\n' then 1 else 0)
  | _ => 0

/-- Where the import block goes: in the place of the first literal import, the others being dropped, or
before everything else when there is none. -/
def importEdits (scanned : SourceScan) (block : String) : List Edit :=
  match scanned.spareImports with
  | first :: rest => ⟨first, block⟩ :: rest.map fun span => ⟨span, ""⟩
  | [] =>
    if block.isEmpty then [] else [Edit.insertion (importOffset scanned.text.toList) (block ++ "\n")]

/-- A source with its calls replaced by references, for a file that will stand in `outputDir`. There is
one artifact for each call, in the order of the calls. -/
def SourceScan.rewrite (scanned : SourceScan) (artifacts : List Artifact) (outputDir : Path) :
    Except Rewrite.Error String :=
  if artifacts.length ≠ scanned.occurrences.length then
    .error (.artifactCount scanned.occurrences.length artifacts.length)
  else
    let calls := (scanned.occurrences.zip artifacts).map fun pair =>
      (⟨pair.1.call, artifactName pair.2.hash⟩ : Edit)
    let lines := (newImports scanned.importedHashes artifacts).map (importLine outputDir)
    (Edit.applyAll scanned.text (calls ++ importEdits scanned ("\n".intercalate lines))).mapError .edit

end TypedLiterals
