import TypedLiterals.Generation.Run
import TypedLiterals.Proofs.Cache
import TypedLiterals.Proofs.Generation.Missing

/-!
The course of a run.

A run that is more than a plan makes sure of its directories, takes the sources that have literals
through their steps one after the other, and ends by writing the entrypoint and keeping the cache. What
each step preserves holds of a whole run.
-/

namespace TypedLiterals.Run

variable {project : Project} {engine : Engine} {seed : String} {options : Run.Options}
  {sources : List String} {workspace after : Workspace} {progress : Progress} {report : Report}
  {source : String} {scanned : SourceScan} {list : List (String × SourceScan)}

/-- The sources of a run with what was found in them, as far as it could be scanned. -/
def scans (disk : Disk) (project : Project) (sources : List String) : List (String × SourceScan) :=
  (scanFiles disk project (canonicalSources [] sources)).1

/-- The sources of a run that have literals. -/
def filled (disk : Disk) (project : Project) (sources : List String) : List (String × SourceScan) :=
  (scans disk project sources).filter fun pair => !pair.2.occurrences.isEmpty

/-- What a run works on before its first source. -/
def start (project : Project) (sources : List String) (workspace : Workspace) : Progress where
  cache := Cache.load workspace.disk project
  report :=
    { unchanged :=
        ((scans workspace.disk project sources).filter (·.2.occurrences.isEmpty)).map (·.1)
      failures := (scanFiles workspace.disk project (canonicalSources [] sources)).2 }
  workspace := { workspace with disk := (ensureDirectories project workspace.disk).2 }

@[simp] theorem start_report (project : Project) (sources : List String) (workspace : Workspace) :
    (start project sources workspace).report =
      { unchanged :=
          ((scans workspace.disk project sources).filter (·.2.occurrences.isEmpty)).map (·.1)
        failures := (scanFiles workspace.disk project (canonicalSources [] sources)).2 } := by
  simp only [start]

@[simp] theorem start_disk (project : Project) (sources : List String) (workspace : Workspace) :
    (start project sources workspace).workspace.disk = (ensureDirectories project workspace.disk).2 := by
  simp only [start]

@[simp] theorem start_requests (project : Project) (sources : List String) (workspace : Workspace) :
    (start project sources workspace).workspace.requests = workspace.requests := by
  simp only [start]

@[simp] theorem start_cache (project : Project) (sources : List String) (workspace : Workspace) :
    (start project sources workspace).cache = Cache.load workspace.disk project := by
  simp only [start]

/-- What a run works on after its last source. -/
def last (project : Project) (engine : Engine) (seed : String) (options : Run.Options)
    (sources : List String) (workspace : Workspace) : Progress :=
  steps project engine seed options (start project sources workspace)
    (filled workspace.disk project sources)

theorem run_eq_finish (present : sources ≠ []) (real : options.dryRun = false)
    (prepared : (ensureDirectories project workspace.disk).1 = .ok ()) :
    run project engine seed options sources workspace =
      finish project options (last project engine seed options sources workspace) := by
  have nonempty : sources.isEmpty = false := by simpa using present
  unfold run
  rw [nonempty, real]
  cases made : ensureDirectories project workspace.disk with
  | mk result disk =>
      rw [made] at prepared
      subst prepared
      simp [last, start, filled, scans, made]

theorem run_eq_error {cause : Project.Error} (present : sources ≠ []) (real : options.dryRun = false)
    (failed : (ensureDirectories project workspace.disk).1 = .error cause) :
    run project engine seed options sources workspace =
      (.error cause, { workspace with disk := (ensureDirectories project workspace.disk).2 }) := by
  have nonempty : sources.isEmpty = false := by simpa using present
  unfold run
  rw [nonempty, real]
  cases made : ensureDirectories project workspace.disk with
  | mk result disk =>
      rw [made] at failed
      subst failed
      simp

theorem run_eq_ok (present : sources ≠ []) (real : options.dryRun = false)
    (ran : run project engine seed options sources workspace = (.ok report, after)) :
    (ensureDirectories project workspace.disk).1 = .ok () ∧
      finish project options (last project engine seed options sources workspace) =
        (.ok report, after) := by
  cases made : (ensureDirectories project workspace.disk).1 with
  | error cause =>
      rw [run_eq_error present real made] at ran
      cases ran
  | ok _ => exact ⟨rfl, by rw [← run_eq_finish present real made, ran]⟩

theorem run_dry {result : Except Project.Error Report} (present : sources ≠ []) (planned : options.dryRun = true)
    (ran : run project engine seed options sources workspace = (result, after)) : after = workspace := by
  unfold run at ran
  rw [if_neg (by simpa using present)] at ran
  dsimp only at ran
  rw [if_pos planned] at ran
  exact (Prod.mk.inj ran).2.symm

theorem ensureDirectories_snd (project : Project) (disk : Disk) :
    (ensureDirectories project disk).2 =
      ((disk.ensureDirectory project.declarationDir).2.ensureDirectory project.cacheDir).2 := by
  unfold ensureDirectories
  dsimp only
  split
  · rfl
  · rfl
  · rfl

theorem ensureDirectories_eq_ok_iff {disk : Disk} : (ensureDirectories project disk).1 = .ok () ↔
    (disk.ensureDirectory project.declarationDir).1 = .ok () ∧
      ((disk.ensureDirectory project.declarationDir).2.ensureDirectory project.cacheDir).1 = .ok () := by
  unfold ensureDirectories
  dsimp only
  split
  · next _ declared => simp [declared]
  · next cached => simp [cached]
  · next declared cached => simp [declared, cached]

theorem ensureDirectories_grows (project : Project) (disk : Disk) :
    disk.Grows (ensureDirectories project disk).2 := by
  rw [ensureDirectories_snd]
  exact (Disk.ensureDirectory_grows disk _).trans (Disk.ensureDirectory_grows _ _)

theorem ensureDirectories_opens (prepared : (ensureDirectories project workspace.disk).1 = .ok ()) :
    ∃ base, (ensureDirectories project workspace.disk).2.Opens project.cacheDir base := by
  rw [ensureDirectories_snd]
  exact Disk.ensureDirectory_opens (ensureDirectories_eq_ok_iff.mp prepared).2

/-! ## Sources -/

theorem mem_canonicalSources {seen : List String} :
    source ∈ canonicalSources seen sources ↔
      source ∉ seen ∧ source ∈ sources.map Path.slashed := by
  induction sources generalizing seen with
  | nil => simp [canonicalSources]
  | cons first rest ih =>
      rw [canonicalSources, List.map_cons, List.mem_cons]
      split
      · next known =>
          have member : Path.slashed first ∈ seen := by simpa using known
          rw [ih]
          constructor
          · exact fun found => ⟨found.1, .inr found.2⟩
          · rintro ⟨fresh, rfl | later⟩
            · exact absurd member fresh
            · exact ⟨fresh, later⟩
      · next unknown =>
          have fresh : Path.slashed first ∉ seen := by simpa using unknown
          rw [List.mem_cons, ih, List.mem_cons, not_or]
          by_cases same : source = Path.slashed first
          · simp [same, fresh]
          · simp [same]

theorem nodup_canonicalSources (seen sources : List String) : (canonicalSources seen sources).Nodup := by
  induction sources generalizing seen with
  | nil => exact List.nodup_nil
  | cons first rest ih =>
      rw [canonicalSources]
      split
      · exact ih seen
      · refine List.nodup_cons.mpr ⟨fun member => ?_, ih _⟩
        exact (mem_canonicalSources.mp member).1 List.mem_cons_self

theorem scanFiles_perm (disk : Disk) (project : Project) (sources : List String) :
    ((scanFiles disk project sources).1.map (·.1) ++
      (scanFiles disk project sources).2.map (·.source)).Perm sources := by
  induction sources with
  | nil => exact .nil
  | cons first rest ih =>
      rw [scanFiles]
      cases scanFile disk project first with
      | ok found => exact ih.cons first
      | error cause =>
          simp only [List.map_cons]
          exact List.perm_middle.trans (ih.cons first)

theorem scanFile_of_mem {disk : Disk} {pair : String × SourceScan}
    (member : pair ∈ (scanFiles disk project sources).1) : scanFile disk project pair.1 = .ok pair.2 := by
  induction sources with
  | nil => contradiction
  | cons first rest ih =>
      rw [scanFiles] at member
      cases scan : scanFile disk project first with
      | ok found =>
          rw [scan] at member
          rcases List.mem_cons.mp member with rfl | later
          · exact scan
          · exact ih later
      | error cause =>
          rw [scan] at member
          exact ih member

theorem scanFile_of_mem_filled {disk : Disk} {pair : String × SourceScan}
    (member : pair ∈ filled disk project sources) : scanFile disk project pair.1 = .ok pair.2 :=
  scanFile_of_mem (List.mem_of_mem_filter member)

theorem filled_sublist (disk : Disk) (project : Project) (sources : List String) :
    ((filled disk project sources).map (·.1)).Sublist ((scans disk project sources).map (·.1)) :=
  List.filter_sublist.map _

theorem nodup_scans (disk : Disk) (project : Project) (sources : List String) :
    ((scans disk project sources).map (·.1)).Nodup := by
  have all : ((scans disk project sources).map (·.1) ++
      (scanFiles disk project (canonicalSources [] sources)).2.map (·.source)).Nodup :=
    (scanFiles_perm disk project _).nodup_iff.mpr (nodup_canonicalSources [] sources)
  exact (List.nodup_append'.mp all).1

theorem nodup_filled (disk : Disk) (project : Project) (sources : List String) :
    ((filled disk project sources).map (·.1)).Nodup :=
  (nodup_scans disk project sources).sublist (filled_sublist disk project sources)

theorem filled_perm (disk : Disk) (project : Project) (sources : List String) :
    ((filled disk project sources).map (·.1) ++
      ((scans disk project sources).filter (·.2.occurrences.isEmpty)).map (·.1) ++
      (scanFiles disk project (canonicalSources [] sources)).2.map (·.source)).Perm
        (canonicalSources [] sources) := by
  have parts := List.filter_append_perm (fun pair : String × SourceScan => !pair.2.occurrences.isEmpty)
    (scans disk project sources)
  simp only [Bool.not_not] at parts
  rw [← List.map_append]
  exact ((parts.map _).append_right _).trans (scanFiles_perm disk project _)

theorem mem_slashed_of_mem_filled {disk : Disk} {pair : String × SourceScan}
    (member : pair ∈ filled disk project sources) : pair.1 ∈ sources.map Path.slashed := by
  have found : pair.1 ∈ (scans disk project sources).map (·.1) :=
    (filled_sublist disk project sources).subset (List.mem_map_of_mem member)
  have listed := (scanFiles_perm disk project (canonicalSources [] sources)).subset
    (List.mem_append_left _ found)
  exact (mem_canonicalSources.mp listed).2

/-! ## One source -/

/-- The part of a step that may call the engine. -/
def generation (project : Project) (engine : Engine) (options : Run.Options) (records : List Record)
    (workspace : Workspace) : Except Project.Error Nat × Workspace :=
  match options.timing with
  | .inline => generateMissing project engine records workspace
  | .deferred => (.ok 0, workspace)

variable {partition : Partition}

theorem process_of_error {cause : Project.Error}
    (failed : generation project engine options (Plan.ofScan project seed source scanned partition).records
      workspace = (.error cause, after)) :
    process project engine seed options source scanned partition workspace = (.error cause, after) := by
  unfold generation at failed
  unfold process
  cases timing : options.timing <;> simp_all

/-- The partition of a source after its records are noted and its stale entries taken out. -/
def updated (project : Project) (seed source : String) (scanned : SourceScan) (partition : Partition) :
    Partition :=
  let plan := Plan.ofScan project seed source scanned partition
  plan.stale.foldl Table.erase (recordEntries partition plan.records)

/-- The artifacts of the stale entries of a source. -/
def discarded (project : Project) (seed source : String) (scanned : SourceScan) (partition : Partition) :
    List Path :=
  let plan := Plan.ofScan project seed source scanned partition
  plan.stale.flatMap (staleArtifacts project source (recordEntries partition plan.records))

/-- The disk after the artifacts of stale entries are taken away. -/
def pruned (project : Project) (seed source : String) (scanned : SourceScan) (partition : Partition)
    (disk : Disk) : Disk :=
  (discarded project seed source scanned partition).foldl removeArtifact disk

/-- The part of a step that writes the source in its new form. -/
def rewriting (project : Project) (seed : String) (options : Run.Options) (source : String)
    (scanned : SourceScan) (partition : Partition) (disk : Disk) : Except Project.Error Path × Disk :=
  writeRewritten project options.destination source scanned
    (Plan.ofScan project seed source scanned partition).records
    (pruned project seed source scanned partition disk)

theorem process_of_ok {count : Nat}
    (made : generation project engine options (Plan.ofScan project seed source scanned partition).records
      workspace = (.ok count, after)) :
    process project engine seed options source scanned partition workspace =
      ((rewriting project seed options source scanned partition after.disk).1.map fun path =>
        (⟨source, (Plan.ofScan project seed source scanned partition).records, count,
          (Plan.ofScan project seed source scanned partition).stale, some path⟩,
          updated project seed source scanned partition),
        { after with disk := (rewriting project seed options source scanned partition after.disk).2 }) := by
  unfold generation at made
  unfold process
  cases timing : options.timing <;> simp_all [discardStale, rewriting, pruned, discarded, updated]

/-- The progress after a source failed: its partition is put back. -/
def Progress.failed (progress : Progress) (source : String) (cause : Project.Error)
    (workspace : Workspace) : Progress where
  cache := progress.cache.insert source (progress.cache.partition source)
  report := { progress.report with failures := progress.report.failures ++ [⟨source, cause⟩] }
  workspace := workspace

/-- The progress after a source was taken through all steps. -/
def Progress.done (progress : Progress) (outcome : ProcessedSource) (next : Partition)
    (workspace : Workspace) : Progress where
  cache := progress.cache.insert outcome.source next
  report := { progress.report with processed := progress.report.processed ++ [outcome] }
  workspace := workspace

/-- What a step generates, from the partition that the source has by then. -/
def stepGeneration (project : Project) (engine : Engine) (seed : String) (options : Run.Options)
    (progress : Progress) (source : String) (scanned : SourceScan) : Except Project.Error Nat × Workspace :=
  generation project engine options
    (Plan.ofScan project seed source scanned (progress.cache.partition source)).records progress.workspace

/-- What a step writes, from the disk after it has generated. -/
def stepRewriting (project : Project) (engine : Engine) (seed : String) (options : Run.Options)
    (progress : Progress) (source : String) (scanned : SourceScan) : Except Project.Error Path × Disk :=
  rewriting project seed options source scanned (progress.cache.partition source)
    (stepGeneration project engine seed options progress source scanned).2.disk

/-- Whether a step fails only when the source is written. -/
def FailsLate (project : Project) (engine : Engine) (seed : String) (options : Run.Options)
    (progress : Progress) (source : String) (scanned : SourceScan) : Prop :=
  (∃ count, (stepGeneration project engine seed options progress source scanned).1 = .ok count) ∧
    ∃ cause, (stepRewriting project engine seed options progress source scanned).1 = .error cause

/-- The three ways that a step can go. -/
theorem step_cases (project : Project) (engine : Engine) (seed : String) (options : Run.Options)
    (progress : Progress) (source : String) (scanned : SourceScan) :
    (∃ cause after,
      stepGeneration project engine seed options progress source scanned = (.error cause, after) ∧
      step project engine seed options progress source scanned = progress.failed source cause after) ∨
    (∃ count after cause,
      stepGeneration project engine seed options progress source scanned = (.ok count, after) ∧
      (stepRewriting project engine seed options progress source scanned).1 = .error cause ∧
      step project engine seed options progress source scanned = progress.failed source cause
        { after with disk := (stepRewriting project engine seed options progress source scanned).2 }) ∨
    (∃ count after path,
      stepGeneration project engine seed options progress source scanned = (.ok count, after) ∧
      (stepRewriting project engine seed options progress source scanned).1 = .ok path ∧
      step project engine seed options progress source scanned = progress.done
        ⟨source, (Plan.ofScan project seed source scanned (progress.cache.partition source)).records, count,
          (Plan.ofScan project seed source scanned (progress.cache.partition source)).stale, some path⟩
        (updated project seed source scanned (progress.cache.partition source))
        { after with disk := (stepRewriting project engine seed options progress source scanned).2 }) := by
  cases generated : stepGeneration project engine seed options progress source scanned with
  | mk result after =>
      cases result with
      | error cause =>
          refine .inl ⟨cause, after, rfl, ?_⟩
          rw [step, process_of_error generated]
          rfl
      | ok count =>
          have processed := process_of_ok generated
          have same : stepRewriting project engine seed options progress source scanned =
              rewriting project seed options source scanned (progress.cache.partition source)
                after.disk := by
            rw [stepRewriting, generated]
          rw [same]
          cases written : rewriting project seed options source scanned (progress.cache.partition source)
              after.disk with
          | mk outcome disk =>
              rw [written] at processed
              cases outcome with
              | error cause =>
                  refine .inr (.inl ⟨count, after, cause, rfl, rfl, ?_⟩)
                  rw [step, processed]
                  rfl
              | ok path =>
                  refine .inr (.inr ⟨count, after, path, rfl, rfl, ?_⟩)
                  rw [step, processed]
                  rfl

/-- A step gives a source its own partition back or the updated one. -/
theorem step_failed_or_done (project : Project) (engine : Engine) (seed : String) (options : Run.Options)
    (progress : Progress) (source : String) (scanned : SourceScan) :
    (∃ cause workspace,
      step project engine seed options progress source scanned = progress.failed source cause workspace) ∨
    ∃ outcome workspace, outcome.source = source ∧
      step project engine seed options progress source scanned = progress.done outcome
        (updated project seed source scanned (progress.cache.partition source)) workspace := by
  rcases step_cases project engine seed options progress source scanned with
    ⟨cause, after, _, stepped⟩ | ⟨_, after, cause, _, _, stepped⟩ | ⟨count, after, path, _, _, stepped⟩
  · exact .inl ⟨cause, after, stepped⟩
  · exact .inl ⟨cause, _, stepped⟩
  · exact .inr ⟨_, _, rfl, stepped⟩

theorem removeArtifact_cases (disk : Disk) (path : Path) :
    removeArtifact disk path = disk ∨ ∃ place, Disk.Named path ∧
      disk.Walks false Disk.linkLimit [] (Disk.pathNames path.text) (.present place) ∧
      disk.node? place ≠ some .directory ∧ removeArtifact disk path = disk.erase place := by
  unfold removeArtifact
  cases removed : disk.removeFile path with
  | error fault => exact .inl rfl
  | ok after => exact .inr (Disk.removeFile_eq_ok removed)

section Disk

variable {Holds : Disk → Prop}

theorem stepGeneration_preserves
    (grows : ∀ before after : Disk, before.Grows after → Holds before → Holds after)
    (answers : ∀ record ∈ (Plan.ofScan project seed source scanned
        (progress.cache.partition source)).records, record.skip = false → ∀ disk, Holds disk →
      Holds (engine (Generation.request project record) disk).2)
    (holds : Holds progress.workspace.disk) :
    Holds (stepGeneration project engine seed options progress source scanned).2.disk := by
  unfold stepGeneration generation
  split
  · exact generateMissing_preserves grows answers holds
  · exact holds

theorem pruned_preserves {disk : Disk}
    (removes : ∀ path ∈ discarded project seed source scanned partition, ∀ disk, Holds disk →
      Holds (removeArtifact disk path))
    (holds : Holds disk) : Holds (pruned project seed source scanned partition disk) := by
  unfold pruned
  generalize discarded project seed source scanned partition = paths at removes
  induction paths generalizing disk with
  | nil => exact holds
  | cons path rest ih =>
      exact ih (removes path List.mem_cons_self disk holds)
        fun other member => removes other (List.mem_cons_of_mem _ member)

/-- Writing a source adds directories, and then the file unless something failed. -/
theorem writeRewritten_cases (project : Project) (destination : Destination) (source : String)
    (scanned : SourceScan) (records : List Record) (disk : Disk) :
    ∃ prepared, disk.Grows prepared ∧
      (((∃ cause, (writeRewritten project destination source scanned records disk).1 = .error cause) ∧
        (writeRewritten project destination source scanned records disk).2 = prepared) ∨
      ∃ text written, prepared.writeText (rewritePath project destination source) text = .ok written ∧
        writeRewritten project destination source scanned records disk =
          (.ok (rewritePath project destination source), written)) := by
  unfold writeRewritten
  dsimp only
  generalize ((rewritePath project destination source).parent?.getD project.workingDir) = outputDir
  cases rewritten : scanned.rewrite
      (records.map fun record => ⟨record.hash, record.location.module⟩) outputDir with
  | error cause => exact ⟨disk, .refl disk, .inl ⟨⟨_, rfl⟩, rfl⟩⟩
  | ok text =>
      have grows := Disk.ensureDirectory_grows disk outputDir
      cases made : disk.ensureDirectory outputDir with
      | mk result prepared =>
          rw [made] at grows
          refine ⟨prepared, grows, ?_⟩
          cases result with
          | error fault => exact .inl ⟨⟨_, rfl⟩, rfl⟩
          | ok _ =>
              cases wrote : prepared.writeText (rewritePath project destination source) text with
              | error fault =>
                  simp only [wrote]
                  exact .inl ⟨⟨_, rfl⟩, trivial⟩
              | ok written => exact .inr ⟨text, written, wrote, by simp [wrote]⟩

theorem writeRewritten_preserves {records : List Record} {disk : Disk}
    (grows : ∀ before after : Disk, before.Grows after → Holds before → Holds after)
    (writes : ∀ disk text written, disk.writeText (rewritePath project options.destination source) text =
      .ok written → Holds disk → Holds written)
    (holds : Holds disk) :
    Holds (writeRewritten project options.destination source scanned records disk).2 := by
  obtain ⟨prepared, grown, ⟨_, same⟩ | ⟨text, written, wrote, same⟩⟩ :=
    writeRewritten_cases project options.destination source scanned records disk
  · exact same ▸ grows _ _ grown holds
  · rw [same]
    exact writes prepared text written wrote (grows _ _ grown holds)

/-- What the parts of a step preserve, the step preserves however it goes. -/
theorem step_preserves
    (grows : ∀ before after : Disk, before.Grows after → Holds before → Holds after)
    (answers : ∀ record ∈ (Plan.ofScan project seed source scanned
        (progress.cache.partition source)).records, record.skip = false → ∀ disk, Holds disk →
      Holds (engine (Generation.request project record) disk).2)
    (removes : ∀ path ∈ discarded project seed source scanned (progress.cache.partition source),
      ∀ disk, Holds disk → Holds (removeArtifact disk path))
    (writes : ∀ disk text written, disk.writeText (rewritePath project options.destination source) text =
      .ok written → Holds disk → Holds written)
    (holds : Holds progress.workspace.disk) :
    Holds (step project engine seed options progress source scanned).workspace.disk := by
  have generated : Holds (stepGeneration project engine seed options progress source scanned).2.disk :=
    stepGeneration_preserves grows answers holds
  have rewritten : Holds (stepRewriting project engine seed options progress source scanned).2 :=
    writeRewritten_preserves grows writes (pruned_preserves removes generated)
  rcases step_cases project engine seed options progress source scanned with
    ⟨cause, after, same, stepped⟩ | ⟨_, _, _, _, _, stepped⟩ | ⟨_, _, _, _, _, stepped⟩
  · rw [stepped]
    rwa [same] at generated
  · rw [stepped]
    exact rewritten
  · rw [stepped]
    exact rewritten

end Disk

/-! ## All sources -/

/-- What every step preserves, from where the steps before it lead, holds after all of them. -/
theorem steps_induction (Invariant : Progress → Prop)
    (preserved : ∀ front pair back, list = front ++ pair :: back →
      Invariant (steps project engine seed options progress front) →
      Invariant (step project engine seed options (steps project engine seed options progress front)
        pair.1 pair.2))
    (holds : Invariant progress) : Invariant (steps project engine seed options progress list) := by
  induction list generalizing progress with
  | nil => exact holds
  | cons pair rest ih =>
      refine ih (fun front other back split => ?_) (preserved [] pair rest rfl holds)
      exact preserved (pair :: front) other back (by rw [split, List.cons_append])

theorem steps_preserves (Invariant : Progress → Prop)
    (preserved : ∀ pair ∈ list, ∀ progress, Invariant progress →
      Invariant (step project engine seed options progress pair.1 pair.2))
    (holds : Invariant progress) : Invariant (steps project engine seed options progress list) :=
  steps_induction Invariant
    (fun front pair back split => preserved pair (by simp [split]) _) holds

theorem steps_append (front back : List (String × SourceScan)) :
    steps project engine seed options progress (front ++ back) =
      steps project engine seed options (steps project engine seed options progress front) back := by
  induction front generalizing progress with
  | nil => rfl
  | cons pair rest ih => exact ih

/-- Whether a run fails at a source only when the source is written. -/
def FailsWriting (project : Project) (engine : Engine) (seed : String) (options : Run.Options)
    (sources : List String) (workspace : Workspace) (source : String) (scanned : SourceScan) : Prop :=
  ∃ front back, filled workspace.disk project sources = front ++ (source, scanned) :: back ∧
    FailsLate project engine seed options
      (steps project engine seed options (start project sources workspace) front) source scanned

/-! ## The end -/

/-- The entrypoint is written in two steps. -/
theorem entrypoint_write_eq_ok_iff {disk written : Disk} {cache : Cache} {path : Path} :
    Entrypoint.write disk project cache = (.ok path, written) ↔ project.entrypoint = path ∧
      ∃ prepared, disk.ensureParent project.entrypoint = (.ok (), prepared) ∧
        prepared.writeText project.entrypoint (Entrypoint.render project cache) = .ok written := by
  unfold Entrypoint.write
  generalize Entrypoint.render project cache = text
  dsimp only
  constructor
  · intro wrote
    cases above : disk.ensureParent project.entrypoint with
    | mk result prepared =>
        rw [above] at wrote
        cases result with
        | error fault => simp at wrote
        | ok _ =>
            cases made : prepared.writeText project.entrypoint text with
            | error fault => simp [made] at wrote
            | ok disk =>
                simp only [made, Prod.mk.injEq, Except.ok.injEq] at wrote
                exact ⟨wrote.1, prepared, rfl, wrote.2 ▸ made⟩
  · rintro ⟨rfl, prepared, above, made⟩
    simp only [above, made]

theorem entrypoint_write_grows {disk written : Disk} {cache : Cache} {path : Path}
    (wrote : Entrypoint.write disk project cache = (.ok path, written)) :
    ∃ prepared text, disk.Grows prepared ∧ prepared.writeText project.entrypoint text = .ok written := by
  obtain ⟨_, prepared, above, put⟩ := entrypoint_write_eq_ok_iff.mp wrote
  have grows := Disk.ensureParent_grows disk project.entrypoint
  rw [above] at grows
  exact ⟨prepared, _, grows, put⟩

/-- The entrypoint that a run writes, when it is asked for, and the disk on which the cache is then kept. -/
def withEntrypoint (project : Project) (options : Run.Options) (progress : Progress) :
    Except Project.Error (Option Path) × Disk :=
  if options.entrypoint then
    let (path, disk) := Entrypoint.write progress.workspace.disk project progress.cache
    (path.map some, disk)
  else (.ok none, progress.workspace.disk)

theorem withEntrypoint_eq_ok {entrypoint : Option Path}
    (made : (withEntrypoint project options progress).1 = .ok entrypoint) :
    (options.entrypoint = false ∧ entrypoint = none ∧
        (withEntrypoint project options progress).2 = progress.workspace.disk) ∨
      (options.entrypoint = true ∧ ∃ path, Entrypoint.write progress.workspace.disk project progress.cache =
        (.ok path, (withEntrypoint project options progress).2)) := by
  unfold withEntrypoint at made ⊢
  cases wanted : options.entrypoint with
  | false =>
      rw [wanted, if_neg Bool.false_ne_true] at made
      rw [if_neg Bool.false_ne_true]
      exact .inl ⟨rfl, (Except.ok.inj made).symm, rfl⟩
  | true =>
      rw [wanted, if_pos rfl] at made
      rw [if_pos rfl]
      cases wrote : Entrypoint.write progress.workspace.disk project progress.cache with
      | mk result disk =>
          rw [wrote] at made
          cases result with
          | error cause => cases made
          | ok path => exact .inr ⟨rfl, path, rfl⟩

/-- What the end of a run does when it succeeds: it may write the entrypoint, and then the cache is kept. -/
theorem finish_eq_ok (finished : finish project options progress = (.ok report, after)) :
    ∃ entrypoint, (withEntrypoint project options progress).1 = .ok entrypoint ∧
      Cache.save (withEntrypoint project options progress).2 project progress.cache = (.ok (), after.disk) ∧
      report = { progress.report with entrypoint } ∧ after.requests = progress.workspace.requests := by
  have kept : ∀ {entrypoint : Option Path} {disk last : Disk} {result : Except Project.Error Unit},
      Cache.save disk project progress.cache = (result, last) →
      (result.map fun _ => { progress.report with entrypoint }, { progress.workspace with disk := last }) =
        (.ok report, after) →
      Cache.save disk project progress.cache = (.ok (), after.disk) ∧
        report = { progress.report with entrypoint } ∧ after.requests = progress.workspace.requests := by
    intro entrypoint disk last result saved same
    cases result with
    | error cause => cases same
    | ok _ =>
        cases same
        exact ⟨saved, rfl, rfl⟩
  unfold finish at finished
  unfold withEntrypoint
  cases wanted : options.entrypoint with
  | false =>
      rw [wanted, if_neg Bool.false_ne_true] at finished
      rw [if_neg Bool.false_ne_true]
      dsimp only at finished ⊢
      cases saved : Cache.save progress.workspace.disk project progress.cache
      rw [saved] at finished
      exact ⟨none, rfl, saved ▸ kept saved finished⟩
  | true =>
      rw [wanted, if_pos rfl] at finished
      rw [if_pos rfl]
      cases wrote : Entrypoint.write progress.workspace.disk project progress.cache with
      | mk result disk =>
          rw [wrote] at finished
          cases result with
          | error cause => cases finished
          | ok path =>
              dsimp only [Except.map] at finished ⊢
              cases saved : Cache.save disk project progress.cache
              rw [saved] at finished
              exact ⟨some path, rfl, saved ▸ kept saved finished⟩

/-- What the end of a run does to a disk on which the cache directory stands where it stood: what making
directories and writing the entrypoint preserve still holds, then only the document and the place for a
new one change, and the cache is loaded as it was kept. -/
theorem finish_saved {prepared : Disk} {cacheBase : Disk.Place} (Holds : Disk → Prop)
    (grows : ∀ before after : Disk, before.Grows after → Holds before → Holds after)
    (writes : options.entrypoint = true → ∀ disk text written,
      disk.writeText project.entrypoint text = .ok written → Holds disk → Holds written)
    (ways : ∀ disk, Holds disk → prepared.KeepsWays disk)
    (links : ∀ disk, Holds disk → ∀ place target, disk.node? place = some (.link target) →
      prepared.node? place = some (.link target))
    (opens : prepared.Opens project.cacheDir cacheBase) (unlinked : Cache.Unlinked project prepared)
    (holds : Holds progress.workspace.disk)
    (finished : finish project options progress = (.ok report, after)) :
    ∃ ready, Holds ready ∧ ready.KeepsWays after.disk ∧
      (∀ place target, after.disk.node? place = some (.link target) →
        ready.node? place = some (.link target)) ∧
      (∀ place, place ≠ cacheBase ++ [Cache.fileName] → place ≠ cacheBase ++ [Cache.fileName ++ ".tmp"] →
        after.disk.node? place = ready.node? place) ∧
      Cache.load after.disk project = progress.cache.withoutEmpty := by
  obtain ⟨_, made, saved, _⟩ := finish_eq_ok finished
  have holdsDisk : Holds (withEntrypoint project options progress).2 := by
    rcases withEntrypoint_eq_ok made with ⟨_, _, same⟩ | ⟨wanted, _, wrote⟩
    · exact same ▸ holds
    · obtain ⟨middle, text, grown, put⟩ := entrypoint_write_grows wrote
      exact writes wanted middle text _ put (grows _ _ grown holds)
  have ready := grows _ _ (Disk.ensureParent_grows _ (Cache.path project)) holdsDisk
  obtain ⟨base, leads, kept⟩ :=
    Cache.save_eq_ok (unlinked.of_keepsWays (ways _ ready) (links _ ready) opens) saved
  cases leads.unique (opens.of_keepsWays (ways _ ready)).1
  exact ⟨_, ready, kept⟩

theorem step_report (project : Project) (engine : Engine) (seed : String) (options : Run.Options)
    (progress : Progress) (source : String) (scanned : SourceScan) :
    progress.report.processed ⊆ (step project engine seed options progress source scanned).report.processed ∧
      progress.report.failures ⊆ (step project engine seed options progress source scanned).report.failures := by
  rcases step_failed_or_done project engine seed options progress source scanned with
    ⟨cause, workspace, stepped⟩ | ⟨outcome, workspace, _, stepped⟩
  · rw [stepped]
    exact ⟨List.Subset.refl _, List.subset_append_left _ _⟩
  · rw [stepped]
    exact ⟨List.subset_append_left _ _, List.Subset.refl _⟩

theorem steps_report (project : Project) (engine : Engine) (seed : String) (options : Run.Options)
    (progress : Progress) (list : List (String × SourceScan)) :
    progress.report.processed ⊆ (steps project engine seed options progress list).report.processed ∧
      progress.report.failures ⊆ (steps project engine seed options progress list).report.failures :=
  steps_preserves
    (fun later => progress.report.processed ⊆ later.report.processed ∧
      progress.report.failures ⊆ later.report.failures)
    (fun pair _ middle earlier =>
      have added := step_report project engine seed options middle pair.1 pair.2
      ⟨List.Subset.trans earlier.1 added.1, List.Subset.trans earlier.2 added.2⟩)
    ⟨List.Subset.refl _, List.Subset.refl _⟩

/-- What a step reports is in the report of a run that succeeds. -/
theorem report_of_step {front back : List (String × SourceScan)} (present : sources ≠ [])
    (real : options.dryRun = false)
    (ran : run project engine seed options sources workspace = (.ok report, after))
    (split : filled workspace.disk project sources = front ++ (source, scanned) :: back) :
    (step project engine seed options
        (steps project engine seed options (start project sources workspace) front) source
        scanned).report.processed ⊆ report.processed ∧
      (step project engine seed options
        (steps project engine seed options (start project sources workspace) front) source
        scanned).report.failures ⊆ report.failures := by
  obtain ⟨_, finished⟩ := run_eq_ok present real ran
  obtain ⟨_, _, _, reported, _⟩ := finish_eq_ok finished
  have all : last project engine seed options sources workspace =
      steps project engine seed options (step project engine seed options
        (steps project engine seed options (start project sources workspace) front) source scanned) back := by
    unfold last
    rw [split, steps_append, steps]
  rw [reported, all]
  exact steps_report project engine seed options _ back

theorem step_of_failsLate (late : FailsLate project engine seed options progress source scanned) :
    ∃ cause, step project engine seed options progress source scanned = progress.failed source cause
      { (stepGeneration project engine seed options progress source scanned).2 with
        disk := (stepRewriting project engine seed options progress source scanned).2 } := by
  obtain ⟨⟨count, made⟩, cause, failed⟩ := late
  rcases step_cases project engine seed options progress source scanned with
    ⟨_, _, same, _⟩ | ⟨_, after, cause, same, _, stepped⟩ | ⟨_, _, _, _, wrote, _⟩
  · rw [same] at made
    cases made
  · exact ⟨cause, by rw [stepped, same]⟩
  · rw [wrote] at failed
    cases failed

theorem FailsWriting.mem_failures
    (late : FailsWriting project engine seed options sources workspace source scanned)
    (present : sources ≠ []) (real : options.dryRun = false)
    (ran : run project engine seed options sources workspace = (.ok report, after)) :
    source ∈ report.failures.map (·.source) := by
  obtain ⟨front, back, split, failsLate⟩ := late
  have reported := (report_of_step present real ran split).2
  obtain ⟨cause, stepped⟩ := step_of_failsLate failsLate
  rw [stepped] at reported
  exact List.mem_map.mpr ⟨⟨source, cause⟩, reported (by simp [Progress.failed]), rfl⟩

/-! ## A small project -/

/-- A project in the root directory. -/
def smallProject : Project :=
  ⟨⟨"/"⟩, { entrypoint := ⟨"i"⟩, cacheDir := ⟨"c"⟩, typesRootDir := "t" }, "", Syntax.parse⟩

/-- A source with one literal. -/
def smallSource : String := "import{gql}from'graphql-let';gql(`a`)"

/-- A disk with one source that has one literal. -/
def smallDisk : Disk := ⟨[(["a.ts"], .file smallSource.toUTF8)]⟩

/-- A run that writes sources to a directory of their own. -/
def smallOptions : Run.Options := { destination := .directory ⟨"o"⟩, entrypoint := false }

theorem smallDisk_noLink (place : Disk.Place) (target : String) :
    smallDisk.node? place ≠ some (.link target) := by
  intro stands
  unfold Disk.node? at stands
  split at stands
  · cases stands
  · simp [smallDisk, Disk.lookup_cons] at stands

theorem smallRun_report :
    (run smallProject blankEngine "" smallOptions ["a.ts"] ⟨smallDisk, []⟩).1.toOption.map (fun report =>
      (report.processed.map (·.source), report.failures.map (·.source))) = some (["a.ts"], []) := by
  decide +kernel

end TypedLiterals.Run

namespace TypedLiterals

/-- What is known of a run of which some facts were computed. -/
theorem exists_of_outcome {outcome : Except Project.Error Report × Workspace} {Fact : Type}
    {about : Report → Fact} {facts : Fact} (known : outcome.1.toOption.map about = some facts) :
    ∃ report after, outcome = (.ok report, after) ∧ about report = facts := by
  obtain ⟨result, after⟩ := outcome
  cases result with
  | error cause => cases known
  | ok report => exact ⟨report, after, rfl, Option.some.inj known⟩

end TypedLiterals
