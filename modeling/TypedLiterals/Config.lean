import TypedLiterals.Path
import TypedLiterals.Text.Character

/-!
The configuration of a project.

Every field has a default, so an empty configuration is one. `validate` refuses the values that no run
could work with and names the first of them.
-/

namespace TypedLiterals

/-- Which calls are literals: those of `functions` imported from `modules`. -/
structure Config.Literals where
  modules : List String := ["graphql-let"]
  functions : List String := ["gql"]
deriving DecidableEq, Repr

/-- The program that generates types, with placeholders among its arguments. -/
structure Config.Engine where
  program : String := "graphql-codegen-literal"
  args : List String :=
    ["--schema", "\x7bschema\x7d", "--out", "\x7bmodule\x7d", "--dts", "\x7bdeclaration\x7d"]
deriving DecidableEq, Repr

/-- The settings of a project. -/
structure Config where
  schema : List Path := [⟨"schema.graphql"⟩]
  sources : List String := ["src/**/*.ts", "src/**/*.tsx"]
  exclude : List String := ["**/node_modules/**", "**/dist/**", "**/*.d.ts"]
  /-- The combined declaration file. Its directory receives every generated declaration. -/
  entrypoint : Path := ⟨"node_modules/@types/gqlweave/index.d.ts"⟩
  cacheDir : Path := ⟨"node_modules/.cache/gqlweave"⟩
  /-- The first segment of every artifact path. -/
  typesRootDir : String := "proj-root"
  /-- Whether fingerprints are seeded with the schema's contents instead of the configuration. -/
  generateResolverTypes : Bool := false
  literals : Config.Literals := {}
  engine : Config.Engine := {}
deriving DecidableEq, Repr

/-- Why a configuration could not be had. -/
inductive Config.Error where
  | notFound (path : Path)
  | unreadable (path : Path) (cause : String)
  | malformed (path : Path)
  | invalidValue (key reason : String)
  | rejected (reason : String)
deriving DecidableEq, Repr

/-- The text shown for an error of the configuration. -/
def Config.Error.message : Config.Error → String
  | notFound path => s!"config file not found at '{path.text}'"
  | unreadable path cause => s!"failed to read config file '{path.text}': {cause}"
  | malformed path => s!"failed to parse config file '{path.text}'"
  | invalidValue key reason => s!"invalid configuration value for '{key}': {reason}"
  | rejected reason => s!"configuration validation failed: {reason}"

namespace Config

/-- The directory of the entrypoint, where declarations go. -/
def declarationDir (config : Config) : Path :=
  config.entrypoint.parent?.getD ⟨""⟩

/-- Whether a path is made of names and `.` only, and is not empty. -/
def staysInside (path : Path) : Bool :=
  !path.text.isEmpty && path.components.all fun component =>
    match component with
    | .name _ => true
    | .current => true
    | _ => false

/-- At least one module and one function must be named. -/
def validateLiterals (literals : Config.Literals) : Except Config.Error Unit :=
  if literals.modules.isEmpty then
    .error (.invalidValue "literals.modules" "at least one module is required")
  else if literals.functions.isEmpty then
    .error (.invalidValue "literals.functions" "at least one function name is required")
  else .ok ()

/-- The program of the engine must be more than white space. -/
def validateEngine (engine : Config.Engine) : Except Config.Error Unit :=
  if engine.program.toList.all Text.isWhiteSpace then .error (.rejected "engine.program is required")
  else .ok ()

/-- Refuses a configuration for the first of its values that cannot be used. -/
def validate (config : Config) : Except Config.Error Unit :=
  if config.schema.isEmpty then
    .error (.invalidValue "schema" "at least one schema file is required")
  else if config.sources.isEmpty then
    .error (.invalidValue "sources" "at least one source pattern is required")
  else if config.entrypoint.text.isEmpty then
    .error (.invalidValue "gql_dts_entrypoint" "must not be empty")
  else if config.cacheDir.text.isEmpty then
    .error (.invalidValue "cache_dir" "must not be empty")
  else if !staysInside ⟨config.typesRootDir⟩ then
    .error (.invalidValue "types_root_dir" "must be a relative path without '..' segments")
  else do
    validateLiterals config.literals
    validateEngine config.engine

end Config

end TypedLiterals
