import TypedLiterals.Generation.Report

/-!
Calling the generation engine.

The engine is called once for each source and fingerprint that the cache does not have. All calls are
made even when one fails; the failure that is reported is the first in the order of the records.
-/

namespace TypedLiterals

/-- What a run works on: the disk, and the requests made to the engine so far, last first. -/
structure Workspace where
  disk : Disk
  requests : List Request := []

namespace Generation

/-- The records to generate: those not skipped, the first of each source and fingerprint. -/
def missingFrom (seen : List (String × String)) : List Record → List Record
  | [] => []
  | record :: rest =>
    if record.skip || seen.contains (record.source, record.hash) then missingFrom seen rest
    else record :: missingFrom ((record.source, record.hash) :: seen) rest

/-- The request that asks the engine for the artifacts of a record. -/
def request (project : Project) (record : Record) : Request :=
  { source := record.source
    literal := record.literal
    schema := project.config.schema.map project.workingDir.join
    module := record.location.module
    declaration := record.location.declaration }

/-- Makes sure of the directories of both artifacts. -/
def ensureDirectories (record : Record) (disk : Disk) : Except Project.Error Unit × Disk :=
  match disk.ensureParent record.location.module with
  | (.error (parent, cause), after) => (.error (.io parent cause), after)
  | (.ok _, after) =>
    match after.ensureParent record.location.declaration with
    | (.error (parent, cause), last) => (.error (.io parent cause), last)
    | (.ok _, last) => (.ok (), last)

/-- Generates the artifacts of one record. -/
def generate (project : Project) (engine : Engine) (record : Record) (workspace : Workspace) :
    Except Project.Error Unit × Workspace :=
  match ensureDirectories record workspace.disk with
  | (.error cause, disk) => (.error cause, { workspace with disk })
  | (.ok _, disk) =>
    let made := request project record
    let (answer, after) := engine made disk
    (answer.mapError (.generation record.source record.literal),
      { disk := after, requests := made :: workspace.requests })

/-- Generates the artifacts of all records; the answers are in their order. -/
def generateAll (project : Project) (engine : Engine) :
    List Record → Workspace → List (Except Project.Error Unit) × Workspace
  | [], workspace => ([], workspace)
  | record :: rest, workspace =>
    let (answer, after) := generate project engine record workspace
    let (answers, last) := generateAll project engine rest after
    (answer :: answers, last)

/-- The first failure among answers. -/
def firstError : List (Except Project.Error Unit) → Except Project.Error Unit
  | [] => .ok ()
  | .error cause :: _ => .error cause
  | .ok _ :: rest => firstError rest

end Generation

/-- Generates what records still need, and gives the number of engine calls. -/
def generateMissing (project : Project) (engine : Engine) (records : List Record)
    (workspace : Workspace) : Except Project.Error Nat × Workspace :=
  let pending := Generation.missingFrom [] records
  let (answers, after) := Generation.generateAll project engine pending workspace
  ((Generation.firstError answers).map fun _ => pending.length, after)

end TypedLiterals
