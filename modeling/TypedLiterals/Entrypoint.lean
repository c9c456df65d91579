import TypedLiterals.Cache

/-!
The combined declaration of all cached literals.

It declares one overload of each literal function for each literal, by its exact text, so that a call
that was not rewritten still gets the generated type, and a last overload for any other text.
-/

namespace TypedLiterals

namespace Entrypoint

def header : String := "// Generated by gqlweave. Do not edit.\n"

/-- A literal and the specifier of the declaration it stands for. -/
structure Overload where
  literal : String
  specifier : String
deriving DecidableEq, Repr

/-- Entries in order, the first one of each literal. -/
def firstOfLiterals (seen : List String) : List KnownLiteral → List KnownLiteral
  | [] => []
  | entry :: rest =>
    if seen.contains entry.literal then firstOfLiterals seen rest
    else entry :: firstOfLiterals (entry.literal :: seen) rest

def entries (cache : Cache) : List KnownLiteral :=
  cache.values.flatMap Table.values

/-- The overloads of a cache, one for each literal. -/
def overloads (project : Project) (cache : Cache) : List Overload :=
  (firstOfLiterals [] (entries cache)).map fun entry =>
    ⟨entry.literal, Path.specifier project.declarationDir
      (project.workingDir.joinSlashed entry.declaration) declarationSuffix⟩

/-- The declaration of a function for one literal. -/
def overloadLine (function : String) (overload : Overload) : String :=
  String.join ["  export function ", function, "(literal: \x60", overload.literal,
    "\x60): typeof import('", overload.specifier, "');\n"]

/-- The declaration of a function for any other literal. -/
def fallbackLine (function : String) : String :=
  String.join ["  export function ", function, "(literal: string): unknown;\n"]

/-- All declarations of one function. -/
def functionBlock (list : List Overload) (function : String) : String :=
  String.join (list.map (overloadLine function)) ++ fallbackLine function

/-- The declaration of a module that exports the functions. -/
def moduleBlock (functions : List String) (list : List Overload) (module : String) : String :=
  String.join ["\ndeclare module '", module, "' \x7b\n",
    String.join (functions.map (functionBlock list)), "\x7d\n"]

/-- The text of the combined declaration. -/
def render (project : Project) (cache : Cache) : String :=
  header ++ String.join
    (project.config.literals.modules.map
      (moduleBlock project.config.literals.functions (overloads project cache)))

/-- Writes the entrypoint and gives its path. The second component is the disk also when a step
fails. -/
def write (disk : Disk) (project : Project) (cache : Cache) : Except Project.Error Path × Disk :=
  let path := project.entrypoint
  match disk.ensureParent path with
  | (.error (parent, cause), prepared) => (.error (.io parent cause), prepared)
  | (.ok _, prepared) =>
    match prepared.writeText path (render project cache) with
    | .error cause => (.error (.io path cause), prepared)
    | .ok written => (.ok path, written)

end Entrypoint

end TypedLiterals
