import TypedLiterals.Proofs.Disk.Again
import TypedLiterals.Proofs.Generation.Writing

/-!
Running again.

After a run in which no source failed, every literal is known and no entry is stale. A second run over the
same sources finds all files written and all directories open: it asks nothing of the engine and leaves the
same at every place of the disk.
-/

namespace TypedLiterals

open Disk (Place placeOf)

variable {project : Project} {engine : Engine} {seed : String} {options : Run.Options}
  {sources : List String} {workspace after : Workspace} {progress : Run.Progress} {report : Report}
  {source hash : String} {scanned : SourceScan} {partition other : Partition} {path : Path}
  {disk base : Disk} {cache : Cache}

/-! ## Plans that leave nothing to do -/

/-- A plan under which nothing is generated, recorded or freed. -/
structure Plan.Settled (plan : Plan) : Prop where
  stale : plan.stale = []
  skip : ∀ record ∈ plan.records, record.skip = true

namespace Run

/-- Once a source has been processed, its plan is settled. -/
theorem settled_updated (project : Project) (seed source : String) (scanned : SourceScan)
    (partition : Partition) :
    (Plan.ofScan project seed source scanned
      (updated project seed source scanned partition)).Settled where
  stale := by
    rw [List.eq_nil_iff_forall_not_mem]
    intro hash stale
    obtain ⟨⟨known, found⟩, unused⟩ := mem_stale.mp stale
    rw [find?_updated, Partition.entryAfter] at found
    split at found
    · split at found
      · next used => exact unused used
      · cases found
    · obtain ⟨occurrence, last, _⟩ := Option.map_eq_some_iff.mp found
      have same := List.find?_some last
      rw [decide_eq_true_eq] at same
      have member := List.mem_reverse.mp (List.mem_of_find?_eq_some last)
      exact unused (same ▸ List.mem_append_left _ (List.mem_map_of_mem member))
  skip := by
    intro record member
    obtain ⟨occurrence, inside, rfl⟩ := List.mem_map.mp member
    rw [record_skip, Table.contains_eq_true]
    simp only [find?_updated]
    exact Partition.exists_entryAfter inside

section Settled

variable (settled : (Plan.ofScan project seed source scanned partition).Settled)
include settled

theorem updated_of_settled : updated project seed source scanned partition = partition := by
  have none : (Plan.ofScan project seed source scanned partition).records.filter (!·.skip) = [] := by
    rw [List.filter_eq_nil_iff]
    intro record member
    simp [settled.skip record member]
  rw [updated, settled.stale, recordEntries, none]
  rfl

theorem discarded_of_settled : discarded project seed source scanned partition = [] := by
  rw [discarded, settled.stale, List.flatMap_nil]

theorem generation_of_settled (engine : Engine) (options : Run.Options) (workspace : Workspace) :
    generation project engine options (Plan.ofScan project seed source scanned partition).records
      workspace = (.ok 0, workspace) := by
  have none : Generation.missingFrom [] (Plan.ofScan project seed source scanned partition).records = [] := by
    rw [List.eq_nil_iff_forall_not_mem]
    intro record missing
    obtain ⟨member, wanted⟩ := Generation.mem_of_mem_missingFrom missing
    rw [settled.skip record member] at wanted
    cases wanted
  unfold generation
  split
  · rw [generateMissing, none]
    rfl
  · rfl

end Settled

/-- The new form of a source does not depend on what is remembered of it. -/
theorem newText_congr (project : Project) (seed : String) (destination : Destination) (source : String)
    (scanned : SourceScan) (partition other : Partition) :
    newText project seed destination source scanned partition =
      newText project seed destination source scanned other := by
  rw [newText, newText, records_ofScan, records_ofScan, List.map_map, List.map_map]
  rfl

/-! ## Writing what is written -/

/-- Whether a source stands on a disk in its new form, in a directory that is open. -/
def Stands (project : Project) (seed : String) (destination : Destination) (disk : Disk) (source : String)
    (scanned : SourceScan) (partition : Partition) : Prop :=
  ∃ text place, newText project seed destination source scanned partition = .ok text ∧
    disk.read (rewritePath project destination source) = .ok text.toUTF8 ∧
    disk.Opens (outputDir project destination source) place

theorem Stands.congr (stands : Stands project seed options.destination disk source scanned partition)
    (other : Partition) : Stands project seed options.destination disk source scanned other := by
  obtain ⟨text, place, new, read, opens⟩ := stands
  exact ⟨text, place, by rw [newText_congr project seed options.destination source scanned other partition,
    new], read, opens⟩

theorem writeRewritten_of_stands {records : List Record} {text : String} {place : Place}
    (new : scanned.rewrite (records.map fun record => ⟨record.hash, record.location.module⟩)
      (outputDir project options.destination source) = .ok text)
    (read : disk.read (rewritePath project options.destination source) = .ok text.toUTF8)
    (opens : disk.Opens (outputDir project options.destination source) place) :
    ∃ written, writeRewritten project options.destination source scanned records disk =
      (.ok (rewritePath project options.destination source), written) ∧ disk.Same written := by
  obtain ⟨written, wrote, same⟩ := Disk.write_again read
  have wroteText : disk.writeText (rewritePath project options.destination source) text = .ok written := wrote
  have made := Disk.ensureDirectory_of_opens opens
  rw [outputDir] at new made
  refine ⟨written, ?_, same⟩
  unfold writeRewritten
  dsimp only
  rw [new]
  dsimp only
  rw [made]
  dsimp only
  rw [wroteText]

/-- What a step reports of a source with a settled plan. -/
def settledOutcome (project : Project) (seed : String) (destination : Destination) (source : String)
    (scanned : SourceScan) (partition : Partition) : ProcessedSource :=
  ⟨source, (Plan.ofScan project seed source scanned partition).records, 0, [],
    some (rewritePath project destination source)⟩

/-- A step over a source that is settled and stands in its new form leaves the same on the disk. -/
theorem step_again (engine : Engine)
    (settled : (Plan.ofScan project seed source scanned (progress.cache.partition source)).Settled)
    (stands : Stands project seed options.destination base source scanned (progress.cache.partition source))
    (same : base.Same progress.workspace.disk) :
    ∃ disk, base.Same disk ∧ step project engine seed options progress source scanned = progress.done
      (settledOutcome project seed options.destination source scanned (progress.cache.partition source))
      (progress.cache.partition source) { progress.workspace with disk } := by
  obtain ⟨text, place, new, read, opens⟩ := stands
  have generated : stepGeneration project engine seed options progress source scanned =
      (.ok 0, progress.workspace) := generation_of_settled settled engine options progress.workspace
  obtain ⟨written, wrote, unchanged⟩ := writeRewritten_of_stands new (same.read read)
    (opens.of_keepsWays same.keepsWays)
  have rewritten : stepRewriting project engine seed options progress source scanned =
      (.ok (rewritePath project options.destination source), written) := by
    rw [stepRewriting, generated, rewriting, pruned, discarded_of_settled settled]
    exact wrote
  refine ⟨written, same.trans unchanged, ?_⟩
  rcases step_cases project engine seed options progress source scanned with
    ⟨_, _, failed, _⟩ | ⟨_, _, _, _, failed, _⟩ | ⟨count, after, path, made, done, stepped⟩
  · rw [generated] at failed
    cases failed
  · rw [rewritten] at failed
    cases failed
  · rw [generated] at made
    rw [rewritten] at done
    cases made
    cases done
    rw [stepped, rewritten, updated_of_settled settled, settled.stale]
    rfl

/-- Steps over sources that are settled and stand in their new forms only note that they are done. -/
theorem steps_again (engine : Engine) (progress : Progress) {list : List (String × SourceScan)} {known : Cache}
    (settled : ∀ pair ∈ list, (Plan.ofScan project seed pair.1 pair.2 (known.partition pair.1)).Settled)
    (stands : ∀ pair ∈ list, Stands project seed options.destination base pair.1 pair.2
      (known.partition pair.1))
    (remembered : ∀ source, progress.cache.partition source = known.partition source)
    (same : base.Same progress.workspace.disk) :
    ∃ cache disk, (∀ source, Cache.partition cache source = known.partition source) ∧ base.Same disk ∧
      steps project engine seed options progress list =
        ⟨cache, { progress.report with
            processed := progress.report.processed ++ list.map fun pair =>
              settledOutcome project seed options.destination pair.1 pair.2 (known.partition pair.1) },
          { progress.workspace with disk }⟩ := by
  induction list generalizing progress with
  | nil => exact ⟨progress.cache, progress.workspace.disk, remembered, same, by simp [steps]⟩
  | cons pair rest ih =>
      obtain ⟨source, scanned⟩ := pair
      have first := settled _ List.mem_cons_self
      have standsFirst := stands _ List.mem_cons_self
      rw [← remembered] at first standsFirst
      obtain ⟨disk, unchanged, stepped⟩ := step_again engine first standsFirst same
      have partitions : ∀ other, Cache.partition
          (step project engine seed options progress source scanned).cache other =
            known.partition other := by
        intro other
        rw [stepped, Progress.done, Cache.partition_insert, settledOutcome, ← remembered]
        split
        · next equal => rw [equal]
        · rfl
      obtain ⟨cache, last, kept, sameLast, all⟩ :=
        ih _ (fun pair member => settled pair (List.mem_cons_of_mem _ member))
          (fun pair member => stands pair (List.mem_cons_of_mem _ member)) partitions
          (by rw [stepped]; exact unchanged)
      refine ⟨cache, last, kept, sameLast, ?_⟩
      rw [steps, all, stepped, remembered]
      simp [Progress.done]

/-! ## The end of a run -/

end Run

/-- A cache is determined by its partitions when empty ones are left out. -/
theorem Cache.withoutEmpty_congr {known : Cache}
    (same : ∀ source, Cache.partition cache source = Cache.partition known source) :
    Cache.withoutEmpty cache = Cache.withoutEmpty known := by
  have find : ∀ (cache : Cache) source, cache.withoutEmpty.find? source =
      if (cache.partition source).isEmpty then none else some (cache.partition source) := by
    intro cache source
    rw [Cache.find?_withoutEmpty, Cache.partition]
    cases cache.find? source with
    | none => rfl
    | some partition => cases empty : partition.isEmpty <;> simp [Option.filter, empty]
  refine Table.ext_find? fun source => ?_
  rw [find, find, same]

theorem Entrypoint.entries_withoutEmpty (cache : Cache) :
    Entrypoint.entries cache.withoutEmpty = Entrypoint.entries cache := by
  unfold Entrypoint.entries Cache.withoutEmpty Table.filter Table.values
  dsimp only
  induction cache.entries with
  | nil => rfl
  | cons entry rest ih =>
      cases empty : entry.2.isEmpty with
      | false => simp [empty, ih]
      | true =>
          rw [List.filter_cons_of_neg (by simp [empty]), ih, List.map_cons, List.flatMap_cons,
            Table.eq_empty empty]
          rfl

theorem Entrypoint.render_congr (project : Project) {known : Cache}
    (same : ∀ source, Cache.partition cache source = Cache.partition known source) :
    Entrypoint.render project cache = Entrypoint.render project known := by
  rw [Entrypoint.render, Entrypoint.render, Entrypoint.overloads, Entrypoint.overloads,
    ← Entrypoint.entries_withoutEmpty cache, Cache.withoutEmpty_congr same, Entrypoint.entries_withoutEmpty]

/-- A cache that is on the disk already is kept again without any change to what stands there. -/
theorem Cache.save_again {place : Place} (opens : disk.Opens project.cacheDir place)
    (settled : disk.ensureParent (Cache.path project) = (.ok (), disk))
    (vacant : disk.node? (place ++ [Cache.fileName ++ ".tmp"]) = none)
    (stored : disk.node? (place ++ [Cache.fileName]) = some (.file (Cache.document cache).toUTF8)) :
    ∃ after, Cache.save disk project cache = (.ok (), after) ∧ disk.Same after := by
  have pathMember : Cache.fileName ∈ [Cache.fileName, Cache.fileName ++ ".tmp"] := List.mem_cons_self
  have temporaryMember : Cache.fileName ++ ".tmp" ∈ [Cache.fileName, Cache.fileName ++ ".tmp"] :=
    List.mem_cons_of_mem _ List.mem_cons_self
  obtain ⟨written, after, wrote, moved, same⟩ := Disk.replace_again opens
    (Cache.named_cacheDir_join temporaryMember) (Cache.pathNames_cacheDir_join temporaryMember)
    (Cache.isPlain_of_mem temporaryMember) vacant (Cache.named_cacheDir_join pathMember)
    (Cache.pathNames_cacheDir_join pathMember) (Cache.isPlain_of_mem pathMember) stored
  exact ⟨after, Cache.save_eq_ok_iff.mpr ⟨disk, written, settled, wrote, moved⟩, same⟩

namespace Run

/-- What the end of a run leaves on a disk: the cache, and the entrypoint when it is asked for, in
directories that are open. -/
structure Ended (project : Project) (options : Run.Options) (cache : Cache) (disk : Disk) (base : Place) :
    Prop where
  opens : disk.Opens project.cacheDir base
  vacant : disk.node? (base ++ [Cache.fileName ++ ".tmp"]) = none
  stored : disk.node? (base ++ [Cache.fileName]) = some (.file (Cache.document cache).toUTF8)
  parent : ∀ later, disk.KeepsWays later → later.ensureParent (Cache.path project) = (.ok (), later)
  entrypoint : options.entrypoint = true →
    disk.read project.entrypoint = .ok (Entrypoint.render project cache).toUTF8 ∧
    ∀ later, disk.KeepsWays later → later.ensureParent project.entrypoint = (.ok (), later)

theorem cacheDir_join_mem {name : String} (member : name ∈ [Cache.fileName, Cache.fileName ++ ".tmp"]) :
    project.cacheDir.join ⟨name⟩ ∈ Cache.path project :: closingPaths project options := by
  rcases List.mem_pair.mp member with rfl | rfl
  · exact List.mem_cons_self
  · exact List.mem_cons_of_mem _ List.mem_cons_self

/-- Before the end of a run keeps the cache, it leaves all places alone but that of the entrypoint. -/
theorem finish_spares_early
    (direct : ∀ path ∈ Cache.path project :: closingPaths project options,
      progress.workspace.disk.Direct path)
    (finished : finish project options progress = (.ok report, after)) :
    ∃ disk, progress.workspace.disk.Spares (fun place =>
        ∀ path ∈ Cache.path project :: closingPaths project options, place ≠ placeOf path) disk ∧
      Cache.save disk project progress.cache = (.ok (), after.disk) ∧
      (options.entrypoint = false ∨ options.entrypoint = true ∧
        ∃ path, Entrypoint.write progress.workspace.disk project progress.cache = (.ok path, disk)) := by
  obtain ⟨_, made, saved, _⟩ := finish_eq_ok finished
  have begun := withEntrypoint_eq_ok made
  refine ⟨_, ?_, saved, begun.imp_left And.left⟩
  rcases begun with ⟨_, _, same⟩ | ⟨wanted, path, wrote⟩
  · rw [same]
    exact .refl _
  · have asked : project.entrypoint ∈ Cache.path project :: closingPaths project options := by
      simp [closingPaths, wanted]
    obtain ⟨_, _, grows, put⟩ := entrypoint_write_grows wrote
    exact grows.spares.trans (Disk.spares_write ((direct _ asked).of_links grows.keeps.links)
      (fun held => held _ asked rfl) put)

/-- Keeping the cache leaves all places alone but those of its document. -/
theorem save_spares {place : Place} (opens : disk.Opens project.cacheDir place)
    (direct : ∀ path ∈ Cache.path project :: closingPaths project options, disk.Direct path)
    (saved : Cache.save disk project cache = (.ok (), after.disk)) :
    disk.Spares (fun other => other ≠ placeOf (Cache.path project) ∧ other ≠ placeOf (Cache.temporaryPath project))
        after.disk ∧
      placeOf (Cache.path project) = place ++ [Cache.fileName] ∧
      placeOf (Cache.temporaryPath project) = place ++ [Cache.fileName ++ ".tmp"] := by
  have inDirectory : ∀ name ∈ [Cache.fileName, Cache.fileName ++ ".tmp"],
      disk.Direct (project.cacheDir.join ⟨name⟩) :=
    fun name member => direct _ (cacheDir_join_mem member)
  have places := fun name member => (Cache.placeOf_join opens member (inDirectory name member)).1
  have document : placeOf (Cache.path project) = place ++ [Cache.fileName] := places _ List.mem_cons_self
  have temporary : placeOf (Cache.temporaryPath project) = place ++ [Cache.fileName ++ ".tmp"] :=
    places _ (List.mem_cons_of_mem _ List.mem_cons_self)
  have kept := (Cache.save_leaves opens inDirectory saved).1
  rw [← document, ← temporary] at kept
  exact ⟨kept, document, temporary⟩

/-- The end of a run leaves other places alone than those of the cache and the entrypoint, and what it
makes is there when it is done. -/
theorem finish_ended {place : Place} (opens : progress.workspace.disk.Opens project.cacheDir place)
    (direct : ∀ path ∈ Cache.path project :: closingPaths project options,
      progress.workspace.disk.Direct path)
    (apart : options.entrypoint = true → placeOf project.entrypoint ≠ placeOf (Cache.path project) ∧
      placeOf project.entrypoint ≠ placeOf (Cache.temporaryPath project))
    (finished : finish project options progress = (.ok report, after)) :
    progress.workspace.disk.Spares (fun place =>
      ∀ path ∈ Cache.path project :: closingPaths project options, place ≠ placeOf path) after.disk ∧
    Cache.load after.disk project = Cache.withoutEmpty progress.cache ∧
    Ended project options progress.cache after.disk place := by
  obtain ⟨disk, spares, saved, begun⟩ := finish_spares_early direct finished
  have asked : options.entrypoint = true →
      project.entrypoint ∈ Cache.path project :: closingPaths project options :=
    fun wanted => by simp [closingPaths, wanted]
  have opensDisk := opens.of_keepsWays spares.ways
  have directDisk := fun path member => (direct path member).of_links spares.links
  obtain ⟨kept, document, temporary⟩ := save_spares opensDisk directDisk saved
  obtain ⟨_, ways, vacant, stored, loaded⟩ := Cache.save_leaves opensDisk
    (fun name member => directDisk _ (cacheDir_join_mem member)) saved
  have left := kept.mono (fun (other : Place) (held : ∀ path ∈ Cache.path project ::
      closingPaths project options, other ≠ placeOf path) =>
    ⟨held _ List.mem_cons_self, held _ (List.mem_cons_of_mem _ List.mem_cons_self)⟩)
  obtain ⟨prepared, _, made, _⟩ := Cache.save_eq_ok_iff.mp saved
  rw [made] at ways
  refine ⟨spares.trans left, loaded, opensDisk.of_keepsWays kept.ways, vacant, stored,
    fun later still => Disk.ensureParent_again made (ways.trans still), fun wanted => ?_⟩
  rcases begun with unwanted | ⟨_, path, wrote⟩
  · rw [wanted] at unwanted
    cases unwanted
  · obtain ⟨_, prepared, made, put⟩ := entrypoint_write_eq_ok_iff.mp wrote
    have directEntrypoint := directDisk _ (asked wanted)
    exact ⟨kept.read directEntrypoint (apart wanted) (Disk.read_of_write put), fun later still =>
      Disk.ensureParent_again made (((Disk.keeps_write put).ways.trans kept.ways).trans still)⟩

theorem finish_again (progress : Progress) {place : Place} {known : Cache}
    (ended : Ended project options known base place)
    (same : base.Same progress.workspace.disk)
    (remembered : ∀ source, progress.cache.partition source = known.partition source) :
    ∃ disk path, base.Same disk ∧ finish project options progress =
      (.ok { progress.report with entrypoint := path }, { progress.workspace with disk }) := by
  have document : Cache.document progress.cache = Cache.document known :=
    congrArg (fun cache => (Cache.toJson cache).pretty) (Cache.withoutEmpty_congr remembered)
  have rendered := Entrypoint.render_congr project remembered
  have saves : ∀ disk, base.Same disk → ∃ after,
      Cache.save disk project progress.cache = (.ok (), after) ∧ base.Same after := by
    intro disk unchanged
    obtain ⟨after, saved, still⟩ := Cache.save_again (ended.opens.of_keepsWays unchanged.keepsWays)
      (ended.parent disk unchanged.keepsWays) ((unchanged _).trans ended.vacant)
      (by rw [document]; exact (unchanged _).trans ended.stored)
    exact ⟨after, saved, unchanged.trans still⟩
  unfold finish
  cases wanted : options.entrypoint with
  | false =>
      obtain ⟨after, saved, still⟩ := saves progress.workspace.disk same
      exact ⟨after, none, still, by simp [saved, Except.map]⟩
  | true =>
      obtain ⟨read, parent⟩ := ended.entrypoint wanted
      obtain ⟨written, wrote, unchanged⟩ := Disk.write_again (same.read read)
      obtain ⟨after, saved, still⟩ := saves written (same.trans unchanged)
      have wroteText : progress.workspace.disk.writeText project.entrypoint
          (Entrypoint.render project progress.cache) = .ok written := by
        rw [rendered]
        exact wrote
      have entrypoint : Entrypoint.write progress.workspace.disk project progress.cache =
          (.ok project.entrypoint, written) :=
        entrypoint_write_eq_ok_iff.mpr ⟨rfl, _, parent _ same.keepsWays, wroteText⟩
      exact ⟨after, some project.entrypoint, still, by simp [entrypoint, saved, Except.map]⟩

/-! ## Runs -/

theorem scanFile_congr (same : after.disk.read (project.workingDir.joinSlashed source) =
    workspace.disk.read (project.workingDir.joinSlashed source)) :
    scanFile after.disk project source = scanFile workspace.disk project source := by
  unfold scanFile Disk.readText
  dsimp only
  rw [same]

theorem scanFiles_congr {list : List String}
    (same : ∀ source ∈ list, scanFile after.disk project source = scanFile workspace.disk project source) :
    scanFiles after.disk project list = scanFiles workspace.disk project list := by
  induction list with
  | nil => rfl
  | cons first rest ih =>
      rw [scanFiles, scanFiles, ih fun source member => same source (List.mem_cons_of_mem _ member),
        same first List.mem_cons_self]

theorem ensureDirectories_again {later : Disk} (made : (ensureDirectories project disk).1 = .ok ())
    (ways : (ensureDirectories project disk).2.KeepsWays later) :
    ensureDirectories project later = (.ok (), later) := by
  obtain ⟨first, second⟩ := ensureDirectories_eq_ok_iff.mp made
  rw [ensureDirectories_snd] at ways
  have grows := Disk.ensureDirectory_grows (disk.ensureDirectory project.declarationDir).2 project.cacheDir
  have declared := Disk.ensureDirectory_again first (grows.keeps.ways.trans ways)
  have cached := Disk.ensureDirectory_again second ways
  unfold ensureDirectories
  simp only [declared, cached]

/-- Whether the outputs of a run have places of their own: no link stands on the way to them, and neither
the entrypoint nor the cache nor anything else that the run writes or frees is where a source is put in its
new form. -/
structure Placed (project : Project) (seed : String) (options : Run.Options) (sources : List String)
    (disk : Disk) : Prop where
  lasting : ∀ pair ∈ filled disk project sources, Lasting project seed options sources disk pair.1
  direct : ∀ path ∈ Cache.path project :: closingPaths project options, disk.Direct path
  closing : ∀ pair ∈ filled disk project sources,
    ∀ path ∈ Cache.path project :: closingPaths project options,
      placeOf (rewritePath project options.destination pair.1) ≠ placeOf path
  entrypoint : options.entrypoint = true → placeOf project.entrypoint ≠ placeOf (Cache.path project) ∧
    placeOf project.entrypoint ≠ placeOf (Cache.temporaryPath project)

theorem Placed.spares (placed : Placed project seed options sources workspace.disk)
    (confined : Generation.Confined engine) :
    (ensureDirectories project workspace.disk).2.Spares (fun _ => False)
      (last project engine seed options sources workspace).workspace.disk := by
  unfold last
  refine steps_spares confined (nodup_filled workspace.disk project sources) (fun pair member => ?_)
    (by rw [start_disk]; exact .refl _)
  rw [start_cache]
  exact (placed.lasting pair member).harmless (ensureDirectories_grows project workspace.disk).keeps.links
    member (fun _ _ => id) fun _ => id

/-- In a run without failures every source with literals is written. -/
theorem rewrites_of_success (present : sources ≠ []) (real : options.dryRun = false)
    (ran : run project engine seed options sources workspace = (.ok report, after))
    (succeeded : report.failures = []) {pair : String × SourceScan}
    (member : pair ∈ filled workspace.disk project sources) :
    Rewrites project engine seed options sources workspace pair.1 pair.2 := by
  obtain ⟨front, back, split⟩ := List.append_of_mem member
  have reported := (report_of_step present real ran split).2
  rw [succeeded] at reported
  refine ⟨(run_eq_ok present real ran).1, front, back, split, ?_⟩
  rcases step_cases project engine seed options
      (steps project engine seed options (start project sources workspace) front) pair.1 pair.2 with
    ⟨_, _, _, stepped⟩ | ⟨_, _, _, _, _, stepped⟩ | ⟨count, _, path, made, wrote, _⟩
  · rw [stepped] at reported
    simp [Progress.failed] at reported
  · rw [stepped] at reported
    simp [Progress.failed] at reported
  · exact ⟨⟨count, by rw [made]⟩, path, wrote⟩

theorem exists_occurrence {pair : String × SourceScan} (member : pair ∈ filled disk project sources) :
    ∃ occurrence, occurrence ∈ pair.2.occurrences :=
  List.exists_mem_of_ne_nil _ (by simpa using (List.mem_filter.mp member).2)

theorem processed_perm (present : sources ≠ []) (real : options.dryRun = false)
    (ran : run project engine seed options sources workspace = (.ok report, after))
    (succeeded : report.failures = []) :
    (report.processed.map (·.source)).Perm ((filled workspace.disk project sources).map (·.1)) := by
  obtain ⟨_, failed, failures, listed, _⟩ := report_of_run present real ran
  rw [succeeded] at failures
  obtain ⟨_, rfl⟩ := List.append_eq_nil_iff.mp failures.symm
  rwa [List.map_nil, List.append_nil] at listed

theorem scanFiles_again (unwritten : ∀ source ∈ sources.map Path.slashed,
      after.disk.read (project.workingDir.joinSlashed source) =
        workspace.disk.read (project.workingDir.joinSlashed source)) :
    scanFiles after.disk project (canonicalSources [] sources) =
      scanFiles workspace.disk project (canonicalSources [] sources) :=
  scanFiles_congr fun source member => scanFile_congr (unwritten source (mem_canonicalSources.mp member).2)

section Again

variable (confined : Generation.Confined engine) (present : sources ≠ []) (real : options.dryRun = false)
  (ran : run project engine seed options sources workspace = (.ok report, after))
  (placed : Placed project seed options sources workspace.disk)
include confined present real ran placed

theorem ended_of_run : ∃ place,
    (last project engine seed options sources workspace).workspace.disk.Spares (fun place =>
      ∀ path ∈ Cache.path project :: closingPaths project options, place ≠ placeOf path) after.disk ∧
    Cache.load after.disk project =
      Cache.withoutEmpty (last project engine seed options sources workspace).cache ∧
    Ended project options (last project engine seed options sources workspace).cache after.disk place := by
  obtain ⟨prepared, finished⟩ := run_eq_ok present real ran
  obtain ⟨place, opens⟩ := ensureDirectories_opens prepared
  have grows := ensureDirectories_grows project workspace.disk
  have spares := placed.spares confined
  exact ⟨place, finish_ended (opens.of_keepsWays spares.ways)
    (fun path member => ((placed.direct path member).of_links grows.keeps.links).of_links spares.links)
    placed.entrypoint finished⟩

theorem direct_of_run (direct : workspace.disk.Direct path) : after.disk.Direct path := by
  obtain ⟨_, spares, _⟩ := ended_of_run confined present real ran placed
  have started := direct.of_links (ensureDirectories_grows project workspace.disk).keeps.links
  exact (started.of_links (placed.spares confined).links).of_links spares.links

theorem ensureDirectories_of_run : ensureDirectories project after.disk = (.ok (), after.disk) := by
  obtain ⟨_, spares, _⟩ := ended_of_run confined present real ran placed
  exact ensureDirectories_again (run_eq_ok present real ran).1
    ((placed.spares confined).ways.trans spares.ways)

variable (succeeded : report.failures = [])
include succeeded

/-- The partitions after a run without failures: each source with literals has a new one. -/
theorem partitions_of_run :
    (∀ pair ∈ filled workspace.disk project sources, Cache.partition (Cache.load after.disk project) pair.1 =
      updated project seed pair.1 pair.2 (Cache.partition (Cache.load workspace.disk project) pair.1)) ∧
    ∀ source ∉ (filled workspace.disk project sources).map (·.1),
      Cache.partition (Cache.load after.disk project) source =
        Cache.partition (Cache.load workspace.disk project) source := by
  obtain ⟨_, _, _, _, changed, kept⟩ := report_of_run present real ran
  obtain ⟨_, _, loaded, _⟩ := ended_of_run confined present real ran placed
  have listed := processed_perm present real ran succeeded
  rw [loaded]
  refine ⟨fun pair member => ?_, fun source unlisted => ?_⟩
  · rw [Cache.partition_withoutEmpty,
      changed pair member (listed.mem_iff.mpr (List.mem_map_of_mem member))]
  · rw [Cache.partition_withoutEmpty, kept source fun processed => unlisted (listed.mem_iff.mp processed)]

variable {pair : String × SourceScan} (member : pair ∈ filled workspace.disk project sources)
include member

/-- Every literal of the sources is known after a run without failures, and no entry is stale. -/
theorem settled_of_run : (Plan.ofScan project seed pair.1 pair.2
    (Cache.partition (Cache.load after.disk project) pair.1)).Settled := by
  rw [(partitions_of_run confined present real ran placed succeeded).1 pair member]
  exact settled_updated project seed pair.1 pair.2 _

theorem stands_of_run : Stands project seed options.destination after.disk pair.1 pair.2
    (Cache.partition (Cache.load after.disk project) pair.1) := by
  obtain ⟨_, spares, _⟩ := ended_of_run confined present real ran placed
  have lasting := placed.lasting pair member
  obtain ⟨text, new, read, place, opens⟩ :=
    rewritten_last confined lasting (rewrites_of_success present real ran succeeded member)
  have links := lasting.links confined (List.append_nil _).symm
  have stands : Stands project seed options.destination after.disk pair.1 pair.2
      (Cache.partition (Cache.load workspace.disk project) pair.1) :=
    ⟨text, place, new, spares.read (lasting.own.of_links links) (placed.closing pair member) read,
      opens.of_keepsWays spares.ways⟩
  exact stands.congr _

end Again

/-- Whether the records and stale fingerprints of an outcome are those of a plan. -/
def Follows (outcome : ProcessedSource) (plan : Plan) : Prop :=
  outcome.records = plan.records ∧ outcome.stale = plan.stale

/-- What a run reports of a source is its plan against the cache that the run began with. -/
theorem planned_of_run (present : sources ≠ []) (real : options.dryRun = false)
    (ran : run project engine seed options sources workspace = (.ok report, after))
    {outcome : ProcessedSource} (member : outcome ∈ report.processed) :
    ∃ scanned, (outcome.source, scanned) ∈ filled workspace.disk project sources ∧
      Follows outcome (Plan.ofScan project seed outcome.source scanned
        (Cache.partition (Cache.load workspace.disk project) outcome.source)) := by
  obtain ⟨_, finished⟩ := run_eq_ok present real ran
  obtain ⟨_, _, _, rfl, _⟩ := finish_eq_ok finished
  suffices planned : ∀ outcome ∈ (last project engine seed options sources workspace).report.processed,
      ∃ scanned, (outcome.source, scanned) ∈ filled workspace.disk project sources ∧
        Follows outcome (Plan.ofScan project seed outcome.source scanned
          (Cache.partition (Cache.load workspace.disk project) outcome.source)) from
    planned outcome member
  unfold last
  refine steps_induction (fun later => ∀ outcome ∈ later.report.processed, ∃ scanned,
    (outcome.source, scanned) ∈ filled workspace.disk project sources ∧
      Follows outcome (Plan.ofScan project seed outcome.source scanned
        (Cache.partition (Cache.load workspace.disk project) outcome.source))) ?_
    (by rw [start_report]; nofun)
  intro front pair back split earlier outcome member
  have same := steps_start_partition engine seed options split
  rcases step_cases project engine seed options
      (steps project engine seed options (start project sources workspace) front) pair.1 pair.2 with
    ⟨_, _, _, stepped⟩ | ⟨_, _, _, _, _, stepped⟩ | ⟨_, _, _, _, _, stepped⟩
  · rw [stepped] at member
    exact earlier outcome member
  · rw [stepped] at member
    exact earlier outcome member
  · rw [stepped] at member
    rcases List.mem_append.mp member with before | new
    · exact earlier outcome before
    · rw [List.mem_singleton.mp new, same]
      exact ⟨pair.2, by simp [split], rfl, rfl⟩

/-- Whether a run has nothing to do when it is repeated: it asks nothing of the engine, knows all literals,
frees no entry and leaves the same at every place of the disk. -/
def Repeats (project : Project) (engine : Engine) (seed : String) (options : Run.Options)
    (sources : List String) (report : Report) (after : Workspace) : Prop :=
  ∃ again later, run project engine seed options sources after = (.ok again, later) ∧
    later.requests = after.requests ∧
    (again.processed.map (·.source)).Perm (report.processed.map (·.source)) ∧
    again.unchanged = report.unchanged ∧ again.failures = [] ∧
    (∀ outcome ∈ again.processed, outcome.generated = 0 ∧ outcome.stale = [] ∧
      ∀ record ∈ outcome.records, record.skip = true) ∧
    ∀ place, later.disk.node? place = after.disk.node? place

/-- A run that could only be repeated without work finds its sources in the cache. -/
theorem Repeats.load_ne_empty (repeats : Repeats project engine seed options sources report after)
    (present : sources ≠ []) (real : options.dryRun = false) (some : report.processed ≠ []) :
    Cache.load after.disk project ≠ .empty := by
  obtain ⟨again, later, ran, _, listed, _, _, known, _⟩ := repeats
  intro empty
  obtain ⟨first, inside⟩ := List.exists_mem_of_ne_nil _ some
  obtain ⟨outcome, member, _⟩ :=
    List.mem_map.mp (listed.mem_iff.mpr (List.mem_map_of_mem (f := (·.source)) inside))
  obtain ⟨scanned, filled, planned⟩ := planned_of_run present real ran member
  obtain ⟨occurrence, (called : occurrence ∈ scanned.occurrences)⟩ := exists_occurrence filled
  have skipped := (known outcome member).2.2 (Plan.record project seed outcome.source
    (Cache.partition (Cache.load after.disk project) outcome.source) occurrence)
    (by rw [planned.1, records_ofScan]; exact List.mem_map_of_mem called)
  rw [record_skip, empty] at skipped
  cases skipped

end Run

/-- A run without failures that leaves its sources alone has nothing to do when it is repeated. -/
theorem run_idempotent (confined : Generation.Confined engine) (real : options.dryRun = false)
    (ran : run project engine seed options sources workspace = (.ok report, after))
    (succeeded : report.failures = [])
    (unwritten : ∀ source ∈ sources.map Path.slashed,
      after.disk.read (project.workingDir.joinSlashed source) =
        workspace.disk.read (project.workingDir.joinSlashed source))
    (placed : Run.Placed project seed options sources workspace.disk) :
    Run.Repeats project engine seed options sources report after := by
  by_cases present : sources = []
  · subst present
    cases ran
    exact ⟨{}, workspace, rfl, rfl, List.Perm.refl _, rfl, rfl, nofun, fun _ => rfl⟩
  have scanned := Run.scanFiles_again unwritten
  have filled : Run.filled after.disk project sources = Run.filled workspace.disk project sources := by
    rw [Run.filled, Run.filled, Run.scans, Run.scans, scanned]
  have prepared := Run.ensureDirectories_of_run confined present real ran placed
  have settled := fun pair (member : pair ∈ Run.filled workspace.disk project sources) =>
    Run.settled_of_run confined present real ran placed succeeded member
  have stands := fun pair (member : pair ∈ Run.filled workspace.disk project sources) =>
    Run.stands_of_run confined present real ran placed succeeded member
  obtain ⟨place, _, loaded, ended⟩ := Run.ended_of_run confined present real ran placed
  obtain ⟨unchanged, _, failures, _⟩ := Run.report_of_run present real ran
  have listed := Run.processed_perm present real ran succeeded
  rw [succeeded] at failures
  have unscanned := (List.append_eq_nil_iff.mp failures.symm).1
  have begun : (Run.start project sources after).workspace = after := by
    rw [Run.start, prepared]
  obtain ⟨cache, disk, remembered, same, stepped⟩ := Run.steps_again engine
    (Run.start project sources after) settled stands
    (fun source => by rw [Run.start_cache]) (by rw [begun]; exact .refl _)
  rw [← filled, ← Run.last] at stepped
  obtain ⟨ended, entrypoint, kept, finished⟩ := Run.finish_again
    (Run.last project engine seed options sources after) ended (by rw [stepped]; exact same)
    (fun source => by rw [stepped, remembered, loaded, Cache.partition_withoutEmpty])
  rw [← Run.run_eq_finish present real (by rw [prepared]), stepped, begun, Run.start_report, filled, scanned,
    unscanned] at finished
  refine ⟨_, _, finished, rfl, ?_, ?_, rfl, ?_, kept⟩
  · rw [List.nil_append, List.map_map]
    exact listed.symm
  · rw [unchanged, Run.scans, Run.scans, scanned]
  · intro outcome member
    obtain ⟨pair, inside, rfl⟩ := List.mem_map.mp member
    exact ⟨rfl, rfl, (settled pair inside).skip⟩

/-! ## Runs that are repeated -/

/-- A run that writes sources to a directory of their own, and the entrypoint. -/
def repeatedOptions : Run.Options := { destination := .directory ⟨"o"⟩ }

theorem repeatedRun_outcome :
    let outcome := run Run.smallProject blankEngine "" repeatedOptions ["a.ts"] ⟨Run.smallDisk, []⟩
    outcome.1.toOption.map (·.failures) = some [] ∧
      (outcome.2.disk.read ⟨"/a.ts"⟩).toOption = some Run.smallSource.toUTF8 := by
  decide +kernel

theorem smallDisk_places :
    ["a.ts"].map Path.slashed = ["a.ts"] ∧ Run.smallProject.workingDir.joinSlashed "a.ts" = ⟨"/a.ts"⟩ ∧
    (Run.smallDisk.read ⟨"/a.ts"⟩).toOption = some Run.smallSource.toUTF8 ∧
    (Run.filled Run.smallDisk Run.smallProject ["a.ts"]).map (·.1) = ["a.ts"] ∧
    (∀ path ∈ Run.otherPaths Run.smallProject "" repeatedOptions ["a.ts"] Run.smallDisk "a.ts",
      placeOf path ≠ placeOf (Run.rewritePath Run.smallProject repeatedOptions.destination "a.ts")) ∧
    (∀ path ∈ Cache.path Run.smallProject :: Run.closingPaths Run.smallProject repeatedOptions,
      placeOf (Run.rewritePath Run.smallProject repeatedOptions.destination "a.ts") ≠ placeOf path) ∧
    placeOf Run.smallProject.entrypoint ≠ placeOf (Cache.path Run.smallProject) ∧
    placeOf Run.smallProject.entrypoint ≠ placeOf (Cache.temporaryPath Run.smallProject) := by
  decide +kernel

theorem smallDisk_direct (path : Path) : Run.smallDisk.Direct path :=
  Disk.clear_of_noLink Run.smallDisk_noLink [] (Disk.pathNames path.text)

theorem placed_smallDisk : Run.Placed Run.smallProject "" repeatedOptions ["a.ts"] Run.smallDisk := by
  obtain ⟨_, _, _, filled, others, closing, entrypoint⟩ := smallDisk_places
  have only : ∀ pair ∈ Run.filled Run.smallDisk Run.smallProject ["a.ts"], pair.1 = "a.ts" := by
    intro pair listed
    have member := List.mem_map_of_mem (f := Prod.fst) listed
    rwa [filled, List.mem_singleton] at member
  refine ⟨fun pair listed => ?_, fun path _ => smallDisk_direct path, fun pair listed => ?_,
    fun _ => entrypoint⟩
  · rw [only pair listed]
    exact ⟨smallDisk_direct _, fun path _ => smallDisk_direct path, others⟩
  · rw [only pair listed]
    exact closing

theorem run_idempotent_small :
    ∃ report after,
      run Run.smallProject blankEngine "" repeatedOptions ["a.ts"] ⟨Run.smallDisk, []⟩ = (.ok report, after) ∧
      report.failures = [] ∧
      (∀ source ∈ ["a.ts"].map Path.slashed,
        after.disk.read (Run.smallProject.workingDir.joinSlashed source) =
          Run.smallDisk.read (Run.smallProject.workingDir.joinSlashed source)) ∧
      Run.Placed Run.smallProject "" repeatedOptions ["a.ts"] Run.smallDisk ∧
      Run.Repeats Run.smallProject blankEngine "" repeatedOptions ["a.ts"] report after := by
  obtain ⟨outcome, read⟩ := repeatedRun_outcome
  obtain ⟨report, after, ran, succeeded⟩ := exists_of_outcome outcome
  rw [ran] at read
  obtain ⟨listed, path, before, _⟩ := smallDisk_places
  have unwritten : ∀ source ∈ ["a.ts"].map Path.slashed,
      after.disk.read (Run.smallProject.workingDir.joinSlashed source) =
        Run.smallDisk.read (Run.smallProject.workingDir.joinSlashed source) := by
    rw [listed]
    intro source member
    rw [List.mem_singleton.mp member, path, eq_ok_of_toOption read, eq_ok_of_toOption before]
  have repeats := run_idempotent confined_blankEngine rfl ran succeeded unwritten
  exact ⟨report, after, ran, succeeded, unwritten, placed_smallDisk, repeats placed_smallDisk⟩

/-- A disk on which the place for a new document of the cache is a link to the document. -/
def tiedDisk : Disk :=
  ⟨[(["a.ts"], .file Run.smallSource.toUTF8), (["c"], .directory),
    (["c", "literals.json.tmp"], .link "literals.json")]⟩

/-- An engine that also puts a link at the place for a new document of the cache. -/
def tyingEngine : Engine := fun request disk =>
  ((blankEngine request disk).1,
    (blankEngine request disk).2.put ["c", "literals.json.tmp"] (.link "literals.json"))

/-- Whether a run without failures that leaves its only source alone has work to do when it is repeated. -/
def WorksAgain (engine : Engine) (options : Run.Options) (disk : Disk) : Prop :=
  ∃ report after, run Run.smallProject engine "" options ["a.ts"] ⟨disk, []⟩ = (.ok report, after) ∧
    report.failures = [] ∧
    after.disk.read (Run.smallProject.workingDir.joinSlashed "a.ts") =
      disk.read (Run.smallProject.workingDir.joinSlashed "a.ts") ∧
    ¬ Run.Repeats Run.smallProject engine "" options ["a.ts"] report after

theorem worksAgain_of_lost {engine : Engine} {options : Run.Options} {disk : Disk}
    (real : options.dryRun = false)
    (before : (disk.read ⟨"/a.ts"⟩).toOption = some Run.smallSource.toUTF8)
    (lost :
      let outcome := run Run.smallProject engine "" options ["a.ts"] ⟨disk, []⟩
      outcome.1.toOption.map (fun report => (report.failures, report.processed.map (·.source))) =
          some ([], ["a.ts"]) ∧
        (outcome.2.disk.read ⟨"/a.ts"⟩).toOption = some Run.smallSource.toUTF8 ∧
        Cache.load outcome.2.disk Run.smallProject = .empty) :
    WorksAgain engine options disk := by
  obtain ⟨outcome, read, empty⟩ := lost
  obtain ⟨report, after, ran, facts⟩ := exists_of_outcome outcome
  obtain ⟨succeeded, processed⟩ := Prod.mk.inj facts
  rw [ran] at read empty
  refine ⟨report, after, ran, succeeded, ?_, fun repeats => repeats.load_ne_empty (by simp) real ?_ empty⟩
  · rw [smallDisk_places.2.1, eq_ok_of_toOption read, eq_ok_of_toOption before]
  · rintro none
    rw [none] at processed
    cases processed

/-- A run that is only planned knows no more the second time. A link at the place for a new document of the
cache costs the cache, whether it stood there before or the engine made it. -/
theorem repeated_run_works :
    WorksAgain blankEngine { Run.smallOptions with dryRun := true } Run.smallDisk ∧
    WorksAgain blankEngine Run.smallOptions tiedDisk ∧
    WorksAgain tyingEngine Run.smallOptions Run.smallDisk := by
  refine ⟨?_, worksAgain_of_lost rfl (by decide +kernel) (by decide +kernel),
    worksAgain_of_lost rfl (by decide +kernel) (by decide +kernel)⟩
  have planned :
      (run Run.smallProject blankEngine "" { Run.smallOptions with dryRun := true } ["a.ts"]
        ⟨Run.smallDisk, []⟩).1.toOption.map (fun report =>
          (report.failures, report.processed.map fun outcome => outcome.records.map (·.skip))) =
      some ([], [[false]]) := by
    decide +kernel
  obtain ⟨report, after, ran, facts⟩ := exists_of_outcome planned
  obtain ⟨succeeded, processed⟩ := Prod.mk.inj facts
  have same := Run.run_dry (by simp) rfl ran
  subst same
  refine ⟨report, _, ran, succeeded, rfl, ?_⟩
  rintro ⟨again, later, repeated, _, _, _, _, known, _⟩
  rw [ran] at repeated
  cases (Prod.mk.inj repeated).1
  obtain ⟨outcome, _, listed, skips, _⟩ := List.map_eq_cons_iff.mp processed
  obtain ⟨record, _, inside, fresh, _⟩ := List.map_eq_cons_iff.mp skips
  have skipped := (known outcome (by rw [listed]; exact List.mem_cons_self)).2.2 record
    (by rw [inside]; exact List.mem_cons_self)
  rw [fresh] at skipped
  cases skipped

end TypedLiterals
