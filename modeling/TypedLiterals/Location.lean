import TypedLiterals.Path

/-!
Where the artifacts of a literal are kept.

A literal has two artifacts, named after its source and its fingerprint: a typed module under the cache
directory, which rewritten sources import, and a declaration under the declaration directory.
-/

namespace TypedLiterals

def moduleSuffix : String := ".tsx"

def declarationSuffix : String := ".d.ts"

/-- The places of one literal's artifacts. -/
structure Location where
  /-- The declaration relative to the working directory, as the cache records it. -/
  declarationRel : String
  declaration : Path
  module : Path
deriving DecidableEq, Repr

/-- A source path below the fixed first segment of all artifact paths. -/
def sourceBelow (root source : String) : String :=
  if Path.slashed root = "" then Path.slashed source
  else Path.slashed root ++ "/" ++ Path.slashed source

/-- What the names of both artifacts begin with. -/
def artifactStem (logical hash : String) : String :=
  Path.slashed logical ++ "-" ++ hash

/-- Where the artifacts of a literal are kept, from the path of its source and its hash. -/
def Location.ofLiteral (logical hash : String) (declarationDir cacheDir workingDir : Path) : Location :=
  let stem := artifactStem logical hash
  let dir := Path.slashed declarationDir.text
  let name := stem ++ declarationSuffix
  let rel := if dir = "" then name else dir ++ "/" ++ name
  { declarationRel := rel
    declaration := workingDir.joinSlashed rel
    module := cacheDir.joinSlashed (stem ++ moduleSuffix) }

end TypedLiterals
