import TypedLiterals.Project
import TypedLiterals.Dialect
import TypedLiterals.Discovery.Walk

/-!
The sources of a project: files of a known dialect that its patterns select.
-/

namespace TypedLiterals

namespace Discovery

/-- The patterns of a configuration field, or the error for the first that is none. -/
def patterns (key : String) : List String → Except Project.Error (List Glob)
  | [] => .ok []
  | pattern :: rest => do
    match Glob.read pattern with
    | .ok pieces => return ⟨pieces, false⟩ :: (← patterns key rest)
    | .error fault =>
      .error (.config (.invalidValue key
        s!"invalid pattern '{pattern}': error parsing glob '{pattern}': {fault.message}"))

/-- Whether a path is among the included ones and not among the excluded ones. -/
def isSelected (included excluded : List Glob) (path : String) : Bool :=
  included.any (·.isMatch path) && !excluded.any (·.isMatch path)

/-- The canonical path of a file whose extension names a dialect. -/
def sourceOf? (names : List String) : Option String :=
  let path := "/".intercalate names
  (Dialect.ofPath? ⟨path⟩).map fun _ => Path.slashed path

end Discovery

/-- The sources of a project relative to its directory, in order. -/
def Discovery.sources (disk : Disk) (project : Project) : Except Project.Error (List String) := do
  let included ← Discovery.patterns "sources" project.config.sources
  let excluded ← Discovery.patterns "exclude" project.config.exclude
  match disk.locate true project.workingDir with
  | .ok (.present directory) =>
    let paths := (Discovery.filesIn disk directory).filterMap Discovery.sourceOf?
    return (paths.filter (Discovery.isSelected included excluded)).mergeSort
      fun left right => decide (left ≤ right)
  | _ => return []

end TypedLiterals
