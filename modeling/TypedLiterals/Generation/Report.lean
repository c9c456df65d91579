import TypedLiterals.Generation.Plan

/-!
What a run is asked to do and what it reports.
-/

namespace TypedLiterals

/-- Whether a run generates artifacts itself or leaves that for later. -/
inductive Timing where
  | inline
  | deferred
deriving DecidableEq, Repr

/-- Where rewritten sources go: over the sources, or under a directory of their own. -/
inductive Destination where
  | inPlace
  | directory (path : Path)
deriving DecidableEq, Repr

/-- How a run goes about its work. -/
structure Run.Options where
  timing : Timing := .inline
  destination : Destination := .inPlace
  /-- Whether the combined declaration is written. -/
  entrypoint : Bool := true
  /-- Whether the run only plans and changes nothing. -/
  dryRun : Bool := false
deriving DecidableEq, Repr

/-- What happened to one source. -/
structure ProcessedSource where
  source : String
  records : List Record
  /-- The number of engine calls. -/
  generated : Nat
  stale : List String
  rewritten : Option Path
deriving DecidableEq, Repr

/-- A source that could not be processed, and why. -/
structure FailedSource where
  source : String
  cause : Project.Error
deriving DecidableEq, Repr

/-- What a run did. -/
structure Report where
  processed : List ProcessedSource := []
  /-- Sources without literal calls. -/
  unchanged : List String := []
  failures : List FailedSource := []
  entrypoint : Option Path := none
deriving DecidableEq, Repr

namespace ProcessedSource

/-- The number of literals that the cache had. -/
def skipped (outcome : ProcessedSource) : Nat :=
  (outcome.records.filter (·.skip)).length

end ProcessedSource

namespace Report

def isSuccess (report : Report) : Bool :=
  report.failures.isEmpty

def generated (report : Report) : Nat :=
  (report.processed.map (·.generated)).foldl (· + ·) 0

def skipped (report : Report) : Nat :=
  (report.processed.map (·.skipped)).foldl (· + ·) 0

def stale (report : Report) : Nat :=
  (report.processed.map (·.stale.length)).foldl (· + ·) 0

def records (report : Report) : List Record :=
  report.processed.flatMap (·.records)

/-- The records that a deferred run leaves to be generated. -/
def pending (report : Report) : List Record :=
  report.records.filter (!·.skip)

end Report

end TypedLiterals
