import TypedLiterals.Entrypoint
import TypedLiterals.Generation.Missing

/-!
A run over a list of sources.

Each source is scanned, planned against its partition of the cache, generated, recorded, freed of stale
artifacts and rewritten, in this order. A source that fails keeps its partition and stops no other. The
cache is read once before and kept once after all sources.
-/

namespace TypedLiterals

namespace Run

/-- Source paths in canonical spelling, each once. -/
def canonicalSources (seen : List String) : List String → List String
  | [] => []
  | source :: rest =>
    let canonical := Path.slashed source
    if seen.contains canonical then canonicalSources seen rest
    else canonical :: canonicalSources (canonical :: seen) rest

/-- Reads and scans one source. -/
def scanFile (disk : Disk) (project : Project) (source : String) :
    Except Project.Error SourceScan :=
  let path := project.workingDir.joinSlashed source
  match disk.readText path with
  | .error cause => .error (.io path cause)
  | .ok text => (scan project.config.literals path text project.grammar).mapError (.scan source)

/-- Scans sources: those that could be scanned, and the failures of the others. -/
def scanFiles (disk : Disk) (project : Project) :
    List String → List (String × SourceScan) × List FailedSource
  | [] => ([], [])
  | source :: rest =>
    let (scanned, failures) := scanFiles disk project rest
    match scanFile disk project source with
    | .ok found => ((source, found) :: scanned, failures)
    | .error cause => (scanned, ⟨source, cause⟩ :: failures)

/-- A partition with an entry for each record that was not skipped. -/
def recordEntries (partition : Partition) (records : List Record) : Partition :=
  (records.filter (!·.skip)).foldl (fun table record =>
    table.insert record.hash ⟨record.location.declarationRel, record.literal⟩) partition

/-- Removes a file; one that cannot be removed stays. -/
def removeArtifact (disk : Disk) (path : Path) : Disk :=
  match disk.removeFile path with
  | .ok after => after
  | .error _ => disk

/-- The artifacts of a stale fingerprint: the declaration on record and the derived module. -/
def staleArtifacts (project : Project) (source : String) (partition : Partition) (hash : String) :
    List Path :=
  let recorded := (partition.find? hash).map fun entry =>
    project.workingDir.joinSlashed entry.declaration
  recorded.toList ++ [(project.location source hash).module]

/-- Takes stale entries out of a partition and removes their artifacts. -/
def discardStale (project : Project) (source : String) (stale : List String) (partition : Partition)
    (disk : Disk) : Partition × Disk :=
  (stale.foldl Table.erase partition,
    (stale.flatMap (staleArtifacts project source partition)).foldl removeArtifact disk)

/-- Where the rewritten form of a source goes. -/
def rewritePath (project : Project) (destination : Destination) (source : String) : Path :=
  match destination with
  | .inPlace => project.workingDir.joinSlashed source
  | .directory dir => (project.workingDir.join dir).joinSlashed source

/-- Rewrites a source and gives the path that was written. -/
def writeRewritten (project : Project) (destination : Destination) (source : String)
    (scanned : SourceScan) (records : List Record) (disk : Disk) :
    Except Project.Error Path × Disk :=
  let path := rewritePath project destination source
  let outputDir := path.parent?.getD project.workingDir
  let artifacts := records.map fun record => (⟨record.hash, record.location.module⟩ : Artifact)
  match SourceScan.rewrite scanned artifacts outputDir with
  | .error cause => (.error (.rewrite source cause), disk)
  | .ok text =>
    match disk.ensureDirectory outputDir with
    | (.error cause, prepared) => (.error (.io outputDir cause), prepared)
    | (.ok _, prepared) =>
      match prepared.writeText path text with
      | .error cause => (.error (.io path cause), prepared)
      | .ok written => (.ok path, written)

/-- Takes one source through all steps against its partition, and gives its new partition. -/
def process (project : Project) (engine : Engine) (seed : String) (options : Run.Options)
    (source : String) (scanned : SourceScan) (partition : Partition) (workspace : Workspace) :
    Except Project.Error (ProcessedSource × Partition) × Workspace :=
  let plan := Plan.ofScan project seed source scanned partition
  let (generated, after) :=
    match options.timing with
    | .inline => generateMissing project engine plan.records workspace
    | .deferred => (.ok 0, workspace)
  match generated with
  | .error cause => (.error cause, after)
  | .ok count =>
    let recorded := recordEntries partition plan.records
    let (next, pruned) := discardStale project source plan.stale recorded after.disk
    let (path, last) := writeRewritten project options.destination source scanned plan.records pruned
    (path.map fun path =>
      (⟨source, plan.records, count, plan.stale, some path⟩, next), { after with disk := last })

/-- What a dry run reports for one source. -/
def planOutcome (project : Project) (seed source : String) (scanned : SourceScan)
    (partition : Partition) : ProcessedSource :=
  let plan := Plan.ofScan project seed source scanned partition
  ⟨source, plan.records, 0, plan.stale, none⟩

/-- The cache, the report and the workspace between two sources. -/
structure Progress where
  cache : Cache
  report : Report
  workspace : Workspace

/-- Processes a source with literals and notes what came of it. -/
def step (project : Project) (engine : Engine) (seed : String) (options : Run.Options)
    (progress : Progress) (source : String) (scanned : SourceScan) : Progress :=
  let partition := progress.cache.partition source
  let (result, workspace) :=
    process project engine seed options source scanned partition progress.workspace
  match result with
  | .ok (outcome, next) =>
    { cache := progress.cache.insert source next
      report := { progress.report with processed := progress.report.processed ++ [outcome] }
      workspace }
  | .error cause =>
    { cache := progress.cache.insert source partition
      report := { progress.report with failures := progress.report.failures ++ [⟨source, cause⟩] }
      workspace }

/-- Processes scanned sources one after the other. -/
def steps (project : Project) (engine : Engine) (seed : String) (options : Run.Options)
    (progress : Progress) : List (String × SourceScan) → Progress
  | [] => progress
  | (source, scanned) :: rest =>
    steps project engine seed options (step project engine seed options progress source scanned) rest

/-- Makes sure of the declaration and the cache directory. Both are tried; the first failure counts. -/
def ensureDirectories (project : Project) (disk : Disk) : Except Project.Error Unit × Disk :=
  let (declarations, first) := disk.ensureDirectory project.declarationDir
  let (cache, second) := first.ensureDirectory project.cacheDir
  match declarations, cache with
  | .error cause, _ => (.error (.io project.declarationDir cause), second)
  | .ok _, .error cause => (.error (.io project.cacheDir cause), second)
  | .ok _, .ok _ => (.ok (), second)

/-- Writes the entrypoint, when asked for, and keeps the cache. -/
def finish (project : Project) (options : Run.Options) (progress : Progress) :
    Except Project.Error Report × Workspace :=
  let (entrypoint, disk) :=
    if options.entrypoint then
      let (path, disk) := Entrypoint.write progress.workspace.disk project progress.cache
      (path.map some, disk)
    else (.ok none, progress.workspace.disk)
  match entrypoint with
  | .error cause => (.error cause, { progress.workspace with disk })
  | .ok entrypoint =>
    let (saved, last) := Cache.save disk project progress.cache
    (saved.map fun _ => { progress.report with entrypoint }, { progress.workspace with disk := last })

end Run

/-- Takes sources given relative to the working directory through all steps. The run as a whole fails
only when output directories, the entrypoint or the cache cannot be written. -/
def run (project : Project) (engine : Engine) (seed : String) (options : Run.Options)
    (sources : List String) (workspace : Workspace) : Except Project.Error Report × Workspace :=
  if sources.isEmpty then (.ok {}, workspace)
  else
    let (scanned, failures) :=
      Run.scanFiles workspace.disk project (Run.canonicalSources [] sources)
    let cache := Cache.load workspace.disk project
    let bare := scanned.filter fun pair => pair.2.occurrences.isEmpty
    let filled := scanned.filter fun pair => !pair.2.occurrences.isEmpty
    let report : Report := { unchanged := bare.map (·.1), failures }
    if options.dryRun then
      let processed := filled.map fun pair =>
        Run.planOutcome project seed pair.1 pair.2 (cache.partition pair.1)
      (.ok { report with processed }, workspace)
    else
      match Run.ensureDirectories project workspace.disk with
      | (.error cause, disk) => (.error cause, { workspace with disk })
      | (.ok _, disk) =>
        Run.finish project options
          (Run.steps project engine seed options ⟨cache, report, { workspace with disk }⟩ filled)

end TypedLiterals
