import TypedLiterals.Project
import TypedLiterals.Document.Json

/-!
Removing what was generated: the cache directory, the declarations and the entrypoint.

A target is looked at when its turn comes, so one that stood inside an earlier target is gone by then
and is not reported.
-/

namespace TypedLiterals.CommandLine

/-- A target that was removed, or would be, and the number of bytes in it. -/
structure Removal where
  path : String
  size : Nat
deriving DecidableEq, Repr

namespace Clean

/-- What a project has generated: the cache, the types of its sources and the combined declaration. -/
def targets (project : Project) : List Path :=
  [project.cacheDir, project.declarationDir.join ⟨project.config.typesRootDir⟩, project.entrypoint]

/-- A target as it is shown: relative to the working directory when it lies below it. -/
def shownPath (project : Project) (target : Path) : String :=
  ((target.stripPrefix? project.workingDir).getD target).text

/-- Takes away the targets that exist, or only tells which ones do. It stops at the first that cannot
be taken away; the second component is the disk also then. -/
def sweep (project : Project) (dryRun : Bool) :
    List Path → Disk → Except (Path × Disk.Fault) (List Removal) × Disk
  | [], disk => (.ok [], disk)
  | target :: rest, disk =>
    if disk.pathExists target then
      let removal : Removal := ⟨shownPath project target, disk.sizeOf target⟩
      let (removed, after) := if dryRun then (.ok (), disk) else disk.removeAny target
      match removed with
      | .error fault => (.error (target, fault), after)
      | .ok _ =>
        let (later, last) := sweep project dryRun rest after
        (later.map (removal :: ·), last)
    else sweep project dryRun rest disk

def removalJson (removal : Removal) : JsonValue :=
  .object [("path", .string removal.path), ("size_bytes", .number removal.size)]

/-- The answer of a cleaning in machine-readable form. -/
def toJson (dryRun : Bool) (removals : List Removal) : JsonValue :=
  .object [("dry_run", .bool dryRun), ("removed", .array (removals.map removalJson))]

/-! ## Sizes -/

/-- A quotient rounded to the nearest number, halves to the even one. -/
def roundedQuotient (dividend divisor : Nat) : Nat :=
  let quotient := dividend / divisor
  let rest := 2 * (dividend % divisor)
  if divisor < rest || (rest = divisor && quotient % 2 = 1) then quotient + 1 else quotient

/-- A number of hundredths with a point and two places. -/
def hundredths (count : Nat) : String :=
  s!"{count / 100}.{count / 10 % 10}{count % 10}"

/-- A number of bytes in the largest unit that it fills. -/
def sizeText (bytes : Nat) : String :=
  if bytes ≥ 1048576 then s!"{hundredths (roundedQuotient (100 * bytes) 1048576)} MB"
  else if bytes ≥ 1024 then s!"{hundredths (roundedQuotient (100 * bytes) 1024)} KB"
  else s!"{bytes} bytes"

/-- The line printed for one target. -/
def line (dryRun : Bool) (removal : Removal) : String :=
  let verb := if dryRun then "Would remove" else "Removed"
  s!"{verb} {removal.path} ({sizeText removal.size})"

end Clean

end TypedLiterals.CommandLine
