import TypedLiterals.CommandLine.Arguments
import TypedLiterals.CommandLine.Clean
import TypedLiterals.CommandLine.Failure
import TypedLiterals.CommandLine.Forecast
import TypedLiterals.ConfigFile
import TypedLiterals.Discovery.Sources
import TypedLiterals.Engine.Command
import TypedLiterals.Generation.Run
import TypedLiterals.Seed

/-!
Carrying out commands on a disk.

A command prints lines to standard output and standard error and may end in a failure, which is reported
last on standard error and makes the exit code 1. Arguments that make no command have the exit code 2.
-/

namespace TypedLiterals.CommandLine

def programName : String := "gqlweave"

def programVersion : String := "0.1.0"

/-- Where a command is started: its directory, its variables, and the programs that it can start. -/
structure Setting where
  workingDir : Path
  environment : String → Option String
  host : Host

/-- What a command leaves behind. -/
structure Effect where
  disk : Disk
  stdout : List String := []
  stderr : List String := []
  failure : Option Failure := none

/-- A command up to the point where it prints: what it has found out, or why it failed. -/
abbrev Attempt (α : Type) := Except Failure α

/-- The result of a step on a project below a headline. -/
def Attempt.ofProject (headline : String) (result : Except Project.Error α) : Attempt α :=
  result.mapError (Failure.ofProject headline)

/-- A count with its noun. -/
def countText (count : Nat) (noun : String) : String :=
  if count = 1 then s!"{count} {noun}" else s!"{count} {noun}s"

/-- The project directory: the given one without links, or the current one. -/
def projectDir (setting : Setting) (disk : Disk) (invocation : Invocation) : Attempt Path :=
  match invocation.workingDir with
  | none => .ok setting.workingDir
  | some given =>
    (disk.canonical (setting.workingDir.join given)).mapError fun fault =>
      ⟨s!"Project directory not found: {given.text}", [fault.message]⟩

/-- The project that an invocation names, with the grammar that the program is built with. -/
def openProject (setting : Setting) (disk : Disk) (invocation : Invocation) : Attempt Project := do
  let dir ← projectDir setting disk invocation
  Attempt.ofProject "Failed to load configuration" (Project.load disk dir invocation.config Syntax.parse)

/-- The sources named in the invocation, or all that the configuration selects. -/
def chosenSources (disk : Disk) (project : Project) (paths : List Path) : Attempt (List String) :=
  if paths.isEmpty then
    Attempt.ofProject "Failed to discover sources" (Discovery.sources disk project)
  else .ok (paths.map project.canonicalSource)

/-- The schema hash for the fingerprints of a run. -/
def chosenSeed (disk : Disk) (project : Project) : Attempt String :=
  Attempt.ofProject "Failed to hash schema" (Seed.choose disk project)

/-- Lines that are left out when the program is asked to be quiet. -/
def unlessQuiet (invocation : Invocation) (lines : List String) : List String :=
  if invocation.quiet then [] else lines

/-- One line for each source that failed. -/
def warnings (report : Report) : List String :=
  report.failures.map fun failure => s!"warning: {failure.source}: {failure.cause.message}"

/-- The failure of a report with failed sources. -/
def reportFailure (report : Report) (consequence : String) : Option Failure :=
  if report.isSuccess then none
  else
    let sources := countText report.failures.length "source"
    some ⟨s!"{sources} {consequence}", []⟩

/-! ## Commands -/

/-- The line printed for one source. -/
def outcomeLine (outcome : ProcessedSource) : String :=
  s!"  {outcome.source}: {outcome.generated} generated, {outcome.skipped} cached, " ++
    s!"{outcome.stale.length} pruned"

/-- The options of a run as the arguments of its command give them. -/
def runOptions (invocation : Invocation) : Run.Options :=
  { destination := invocation.outDir.elim .inPlace .directory
    entrypoint := !invocation.noEntrypoint }

/-- Generates and rewrites. -/
def gen (setting : Setting) (invocation : Invocation) (disk : Disk) : Effect :=
  let prepared : Attempt (Project × List String) := do
    let project ← openProject setting disk invocation
    return (project, ← chosenSources disk project invocation.paths)
  match prepared with
  | .error failure => { disk, failure := some failure }
  | .ok (_, []) =>
    { disk, stderr := unlessQuiet invocation ["No sources matched; nothing to do."] }
  | .ok (project, sources) =>
    match chosenSeed disk project with
    | .error failure => { disk, failure := some failure }
    | .ok seed =>
      let engine := Engine.ofCommand setting.host project.config.engine
      let (result, workspace) := run project engine seed (runOptions invocation) sources ⟨disk, []⟩
      match result with
      | .error cause =>
        { disk := workspace.disk
          failure := some (.ofProject "Literal generation failed" cause) }
      | .ok report =>
        { disk := workspace.disk
          stdout :=
            if invocation.verbose && !invocation.quiet then report.processed.map outcomeLine else []
          stderr := warnings report
          failure := reportFailure report "failed to process" }

/-- The last line of a plan. -/
def planSummary (forecasts : List Forecast) : String :=
  let generate := countText ((forecasts.map (·.generate.length)).foldl (· + ·) 0) "literal"
  let cached := (forecasts.map (·.cached.length)).foldl (· + ·) 0
  let prune := (forecasts.map (·.prune.length)).foldl (· + ·) 0
  s!"\n{generate} to generate, {cached} cached, {prune} to prune"

/-- What a dry run finds out. -/
def forecast (setting : Setting) (invocation : Invocation) (disk : Disk) : Attempt Report := do
  let project ← openProject setting disk invocation
  let sources ← chosenSources disk project invocation.paths
  let seed ← chosenSeed disk project
  let engine := Engine.ofCommand setting.host project.config.engine
  Attempt.ofProject "Failed to plan literal generation"
    (run project engine seed { dryRun := true } sources ⟨disk, []⟩).1

/-- Shows what `gen` would do. -/
def plan (setting : Setting) (invocation : Invocation) (disk : Disk) : Effect :=
  match forecast setting invocation disk with
  | .error failure => { disk, failure := some failure }
  | .ok report =>
    let forecasts := report.processed.map Forecast.ofProcessed
    let (stdout, notes) :=
      if invocation.json then ([(JsonValue.array (forecasts.map Forecast.toJson)).pretty], [])
      else if forecasts.isEmpty then ([], ["No literals found."])
      else (forecasts.flatMap Forecast.lines, [planSummary forecasts])
    { disk
      stdout
      stderr := unlessQuiet invocation notes ++ warnings report
      failure := reportFailure report "could not be scanned" }

/-- Removes what `gen` generated. -/
def clean (setting : Setting) (invocation : Invocation) (disk : Disk) : Effect :=
  match openProject setting disk invocation with
  | .error failure => { disk, failure := some failure }
  | .ok project =>
    let (result, after) := Clean.sweep project invocation.dryRun (Clean.targets project) disk
    match result with
    | .error (target, fault) =>
      { disk := after, failure := some ⟨s!"Failed to remove {target.text}", [fault.message]⟩ }
    | .ok removals =>
      if invocation.json then
        { disk := after, stdout := [(Clean.toJson invocation.dryRun removals).pretty] }
      else
        let notes :=
          if removals.isEmpty then ["Nothing to clean."]
          else removals.map (Clean.line invocation.dryRun)
        { disk := after, stderr := unlessQuiet invocation notes }

/-- Carries out a command. -/
def carryOut (setting : Setting) (invocation : Invocation) : Disk → Effect :=
  match invocation.command with
  | .gen => gen setting invocation
  | .plan => plan setting invocation
  | .clean => clean setting invocation

/-! ## The program -/

/-- What the program prints and the exit code it ends with. -/
structure Answer where
  code : Nat
  stdout : String
  stderr : String
  disk : Disk

def linesText (lines : List String) : String :=
  String.join (lines.map (· ++ "\n"))

/-- An effect as the texts and exit code that the program leaves behind. -/
def Effect.answer (effect : Effect) : Answer :=
  { code := if effect.failure.isSome then 1 else 0
    stdout := linesText effect.stdout
    stderr := linesText effect.stderr ++ effect.failure.elim "" Failure.text
    disk := effect.disk }

def usageText : String :=
  "Usage: gqlweave [OPTIONS] <COMMAND>\n\nCommands: gen, plan, clean\n"

/-- The name of the program or of one of its commands, with the version. -/
def versionText : Option Command → String
  | none => s!"{programName} {programVersion}\n"
  | some command => s!"{programName}-{command.name} {programVersion}\n"

/-- Runs the program with arguments. -/
def answer (setting : Setting) (arguments : List String) (disk : Disk) : Answer :=
  match Invocation.read setting.environment arguments with
  | .error .usage => ⟨2, "", usageText, disk⟩
  | .error .help => ⟨0, usageText, "", disk⟩
  | .error (.version command) => ⟨0, versionText command, "", disk⟩
  | .ok invocation => (carryOut setting invocation disk).answer

end TypedLiterals.CommandLine
