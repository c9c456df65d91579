import TypedLiterals.Config
import TypedLiterals.Engine.Basic
import TypedLiterals.Location
import TypedLiterals.Scan

/-!
The project that a command works on: its directory, its configuration and what follows from both.
-/

namespace TypedLiterals

/-- Why the literals of a project could not be processed. -/
inductive Project.Error where
  | config (cause : Config.Error)
  | relativeWorkingDir (path : Path)
  | io (path : Path) (cause : Disk.Fault)
  | scan (source : String) (cause : Scan.Error)
  | generation (source literal : String) (cause : Engine.Error)
  | rewrite (source : String) (cause : Rewrite.Error)
deriving DecidableEq, Repr

/-- The text shown for an error of a project. -/
def Project.Error.message : Project.Error → String
  | config cause => s!"configuration error: {cause.message}"
  | relativeWorkingDir path => s!"working directory must be an absolute path: {path.text}"
  | io path cause => s!"I/O error at '{path.text}': {cause.message}"
  | scan source cause => s!"failed to scan '{source}': {cause.message}"
  | generation source literal cause =>
    s!"type generation failed for literal in '{source}': {cause.message}\n  literal: {literal}"
  | rewrite source cause => s!"failed to rewrite '{source}': {cause.message}"

/-- The project of one invocation. Its working directory is absolute. -/
structure Project where
  workingDir : Path
  config : Config
  /-- The fingerprint of the configuration file. -/
  configHash : String
  /-- What its sources are read by. -/
  grammar : Syntax.Grammar

namespace Project

/-- A project, for an absolute working directory only. -/
def inDirectory (workingDir : Path) (config : Config) (configHash : String)
    (grammar : Syntax.Grammar := Syntax.parse) : Except Project.Error Project :=
  if workingDir.isAbsolute then .ok ⟨workingDir, config, configHash, grammar⟩
  else .error (.relativeWorkingDir workingDir)

def cacheDir (project : Project) : Path :=
  project.workingDir.join project.config.cacheDir

/-- The declaration directory relative to the working directory. -/
def declarationRelDir (project : Project) : Path :=
  project.config.declarationDir

def declarationDir (project : Project) : Path :=
  project.workingDir.join project.declarationRelDir

/-- The path of the combined declaration. -/
def entrypoint (project : Project) : Path :=
  project.workingDir.join project.config.entrypoint

/-- The places of the artifacts of a literal in a source. -/
def location (project : Project) (source hash : String) : Location :=
  .ofLiteral (sourceBelow project.config.typesRootDir source) hash project.declarationRelDir
    project.cacheDir project.workingDir

/-- A source path given by a user, relative to the working directory and with single slashes. -/
def canonicalSource (project : Project) (path : Path) : String :=
  let rel := if path.isAbsolute then (path.stripPrefix? project.workingDir).getD path else path
  Path.slashed rel.text

end Project

end TypedLiterals
