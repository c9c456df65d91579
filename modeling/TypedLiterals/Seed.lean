import TypedLiterals.Project
import TypedLiterals.Fingerprint

/-!
The seed of fingerprints.

It is the fingerprint of the configuration, or that of the schema files when resolver types are
generated. A change of the seed gives every literal another fingerprint.
-/

namespace TypedLiterals.Seed

/-- What one schema file adds to the digest: its path and its contents, each with a zero byte behind. -/
def fileBytes (path : Path) (content : List UInt8) : List UInt8 :=
  textBytes path.text ++ [0] ++ content ++ [0]

/-- The seed for schema files given by path and contents, in order. -/
def ofSchema (files : List (Path × List UInt8)) : String :=
  Digest.sha256 (files.flatMap fun file => fileBytes file.1 file.2)

/-- The configured schema files with their contents. -/
def readSchema (disk : Disk) (project : Project) : Except Project.Error (List (Path × List UInt8)) :=
  project.config.schema.mapM fun rel =>
    let full := project.workingDir.join rel
    match disk.read full with
    | .ok content => .ok (rel, content.data.toList)
    | .error cause => .error (.io full cause)

/-- The seed made from the contents of the schema files. -/
def ofContents (disk : Disk) (project : Project) : Except Project.Error String :=
  (readSchema disk project).map ofSchema

/-- The seed of a run: that of the schema where resolver types are generated, else that of the
configuration. -/
def choose (disk : Disk) (project : Project) : Except Project.Error String :=
  if project.config.generateResolverTypes then ofContents disk project else .ok project.configHash

end TypedLiterals.Seed
