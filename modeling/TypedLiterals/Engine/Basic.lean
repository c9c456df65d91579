import TypedLiterals.Disk.Operations
import TypedLiterals.Engine.Request

/-!
Generation engines, seen from the outside: a request goes in, and the artifacts are on the disk or the
engine tells why not.
-/

namespace TypedLiterals

/-- Why a generation engine did not generate. -/
inductive Engine.Error where
  | notStarted (program : String) (cause : Disk.Fault)
  | failed (status stderr : String)
  | fault (cause : Disk.Fault)
  | other (reason : String)
deriving DecidableEq, Repr

/-- The text shown for an error of the engine. -/
def Engine.Error.message : Engine.Error → String
  | notStarted program cause => s!"failed to start '{program}': {cause.message}"
  | failed status stderr => s!"engine exited with {status}: {stderr}"
  | fault cause => s!"I/O error: {cause.message}"
  | other reason => reason

/-- An engine answers a request and may write to the disk, also when it fails. -/
abbrev Engine := Request → Disk → Except Engine.Error Unit × Disk

end TypedLiterals
