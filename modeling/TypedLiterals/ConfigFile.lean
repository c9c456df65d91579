import TypedLiterals.Project
import TypedLiterals.Document.Toml
import TypedLiterals.Fingerprint

/-!
The configuration file of a project.

Every field may be left out, and fields that no configuration has are passed over. A nested section may
also be given as an array, whose items are then its fields in order.
-/

namespace TypedLiterals

/-- A configuration as it was loaded. -/
structure ConfigFile where
  config : Config
  /-- The digest of the file. -/
  hash : String
  path : Path
deriving DecidableEq, Repr

namespace ConfigFile

def fileName : String := "gqlweave.toml"

/-- The value of a field: the default when it is left out, nothing when it has the wrong type. -/
def fieldOr (default : α) (read : Toml.Item → Option α) : Option Toml.Item → Option α
  | none => some default
  | some item => read item

def text? : Toml.Item → Option String
  | .text value => some value
  | _ => none

def boolean? : Toml.Item → Option Bool
  | .boolean value => some value
  | _ => none

def texts? : Toml.Item → Option (List String)
  | .array items => items.mapM text?
  | _ => none

def path? (item : Toml.Item) : Option Path :=
  (text? item).map Path.mk

def paths? (item : Toml.Item) : Option (List Path) :=
  (texts? item).map (·.map Path.mk)

/-- The fields of a section by name, or by position when it is an array. A date counts as a section that
says nothing. -/
def section? (names : List String) : Toml.Item → Option Toml.Entries
  | .table _ entries => some entries
  | .array items => some (names.zip items)
  | .tables latest earlier =>
    some (names.zip ((earlier.reverse ++ [latest]).map (Toml.Item.table ⟨false, false, false⟩)))
  | .date => some []
  | _ => none

/-- The settings for literals; a missing one takes its default. -/
def literals? (item : Toml.Item) : Option Config.Literals := do
  let entries ← section? ["modules", "functions"] item
  let base : Config.Literals := {}
  let modules ← fieldOr base.modules texts? (Toml.find? "modules" entries)
  let functions ← fieldOr base.functions texts? (Toml.find? "functions" entries)
  some { modules, functions }

/-- The settings for the engine; a missing one takes its default. -/
def engine? (item : Toml.Item) : Option Config.Engine := do
  let entries ← section? ["program", "args"] item
  let base : Config.Engine := {}
  let program ← fieldOr base.program text? (Toml.find? "program" entries)
  let args ← fieldOr base.args texts? (Toml.find? "args" entries)
  some { program, args }

/-- The configuration that the entries of a document stand for. -/
def config? (entries : Toml.Entries) : Option Config := do
  let base : Config := {}
  let schema ← fieldOr base.schema paths? (Toml.find? "schema" entries)
  let sources ← fieldOr base.sources texts? (Toml.find? "sources" entries)
  let exclude ← fieldOr base.exclude texts? (Toml.find? "exclude" entries)
  let entrypoint ← fieldOr base.entrypoint path? (Toml.find? "gql_dts_entrypoint" entries)
  let cacheDir ← fieldOr base.cacheDir path? (Toml.find? "cache_dir" entries)
  let typesRootDir ← fieldOr base.typesRootDir text? (Toml.find? "types_root_dir" entries)
  let generateResolverTypes ←
    fieldOr base.generateResolverTypes boolean? (Toml.find? "generate_resolver_types" entries)
  let literals ← fieldOr base.literals literals? (Toml.find? "literals" entries)
  let engine ← fieldOr base.engine engine? (Toml.find? "engine" entries)
  some { schema, sources, exclude, entrypoint, cacheDir, typesRootDir, generateResolverTypes, literals,
         engine }

/-- Where the configuration of a directory is: at the given path, or in the file of the usual name. -/
def locate (workingDir : Path) (given : Option Path) : Path :=
  workingDir.join (given.getD ⟨fileName⟩)

/-- Reads and validates the configuration of a directory. -/
def load (disk : Disk) (workingDir : Path) (given : Option Path) : Except Config.Error ConfigFile :=
  let path := locate workingDir given
  if !disk.pathExists path then .error (.notFound path)
  else
    match disk.readText path with
    | .error cause => .error (.unreadable path cause.message)
    | .ok text =>
      match (Toml.read? text).bind config? with
      | none => .error (.malformed path)
      | some config => config.validate.map fun _ => ⟨config, Digest.sha256 (textBytes text), path⟩

end ConfigFile

/-- The project in a directory with the configuration found there. -/
def Project.load (disk : Disk) (workingDir : Path) (given : Option Path)
    (grammar : Syntax.Grammar := Syntax.parse) : Except Project.Error Project :=
  match ConfigFile.load disk workingDir given with
  | .error cause => .error (.config cause)
  | .ok loaded => Project.inDirectory workingDir loaded.config loaded.hash grammar

end TypedLiterals
