import TypedLiterals.Proofs.Disk.Frame
import TypedLiterals.Proofs.Generation.Artifacts
import TypedLiterals.Proofs.Generation.Update

/-!
What a source that fails leaves behind.

Its partition is put back and the source is as it was, whatever failed. Its artifacts are as they were
too, but for one order of events: stale entries are freed of their artifacts before the source is written,
so when only the writing fails their artifacts are gone while the entries are kept.
-/

namespace TypedLiterals

open Disk (Place placeOf)

variable {project : Project} {engine : Engine} {seed : String} {options : Run.Options}
  {sources : List String} {workspace after : Workspace} {progress : Run.Progress} {report : Report}
  {source hash : String} {scanned : SourceScan} {partition : Partition} {path : Path}
  {base disk : Disk} {Held : Place → Prop}

/-- An engine that touches nothing but the files that it is asked to write. -/
def Generation.Confined (engine : Engine) : Prop :=
  ∀ request (disk : Disk), disk.Direct request.module → disk.Direct request.declaration →
    disk.Spares (fun place => place ≠ placeOf request.module ∧ place ≠ placeOf request.declaration)
      (engine request disk).2

/-- The artifacts of all entries of a partition: the declarations on record and the derived modules. -/
def Partition.artifacts (project : Project) (source : String) (partition : Partition) : List Path :=
  partition.keys.flatMap (Run.staleArtifacts project source partition)

namespace Run

/-- The paths that generating for a source may write. -/
def generatedPaths (project : Project) (seed source : String) (scanned : SourceScan)
    (partition : Partition) : List Path :=
  ((Plan.ofScan project seed source scanned partition).records.filter (!·.skip)).flatMap
    (·.location.artifacts)

/-- The paths that the rest of a step writes or removes. -/
def replacedPaths (project : Project) (seed : String) (destination : Destination) (source : String)
    (scanned : SourceScan) (partition : Partition) : List Path :=
  rewritePath project destination source :: discarded project seed source scanned partition

/-- Whether paths name places of their own, and none that is held. -/
def Apart (Held : Place → Prop) (disk : Disk) (paths : List Path) : Prop :=
  ∀ path ∈ paths, disk.Direct path ∧ ¬ Held (placeOf path)

/-- Whether no link stands where paths lead to. -/
def Linkless (disk : Disk) (paths : List Path) : Prop :=
  ∀ path ∈ paths, ∀ target, disk.node? (placeOf path) ≠ some (.link target)

theorem stepGeneration_spares (options : Run.Options) (confined : Generation.Confined engine)
    (apart : Apart Held base (generatedPaths project seed source scanned (progress.cache.partition source)))
    (spares : base.Spares Held progress.workspace.disk) :
    base.Spares Held (stepGeneration project engine seed options progress source scanned).2.disk := by
  refine stepGeneration_preserves (fun _ _ grows spares => spares.trans grows.spares)
    (fun record member wanted disk spares => spares.trans ?_) spares
  have listed : ∀ path ∈ record.location.artifacts,
      path ∈ generatedPaths project seed source scanned (progress.cache.partition source) := fun path inside =>
    List.mem_flatMap.mpr ⟨record, List.mem_filter.mpr ⟨member, by simp [wanted]⟩, inside⟩
  have module := apart _ (listed record.location.module (by simp [Location.artifacts]))
  have declaration := apart _ (listed record.location.declaration (by simp [Location.artifacts]))
  refine (confined (Generation.request project record) disk (module.1.of_links spares.links)
    (declaration.1.of_links spares.links)).mono fun place held => ⟨?_, ?_⟩
  · rintro rfl
    exact module.2 held
  · rintro rfl
    exact declaration.2 held

theorem spares_removeArtifact (direct : disk.Direct path) (apart : ¬ Held (placeOf path))
    (noLink : ∀ target, disk.node? (placeOf path) ≠ some (.link target)) :
    disk.Spares Held (removeArtifact disk path) := by
  unfold removeArtifact
  cases removed : disk.removeFile path with
  | error fault => exact .refl disk
  | ok after => exact Disk.spares_removeFile direct apart noLink removed

theorem spares_removeArtifact_of_mem {paths : List Path} (apart : Apart Held base paths)
    (noLink : Linkless base paths) (member : path ∈ paths) (spares : base.Spares Held disk) :
    base.Spares Held (removeArtifact disk path) :=
  spares.trans (spares_removeArtifact ((apart path member).1.of_links spares.links) (apart path member).2
    fun target link => noLink path member target (spares.links _ target link))

theorem spares_write_of_mem {paths : List Path} {written : Disk} {text : String}
    (apart : Apart Held base paths) (member : path ∈ paths) (spares : base.Spares Held disk)
    (wrote : disk.writeText path text = .ok written) : base.Spares Held written :=
  spares.trans (Disk.spares_write ((apart path member).1.of_links spares.links) (apart path member).2 wrote)

/-- Whether a step touches no place that is held. -/
structure Harmless (project : Project) (seed : String) (destination : Destination) (Held : Place → Prop)
    (disk : Disk) (source : String) (scanned : SourceScan) (partition : Partition) : Prop where
  generated : Apart Held disk (generatedPaths project seed source scanned partition)
  replaced : Apart Held disk (replacedPaths project seed destination source scanned partition)
  linkless : Linkless disk (discarded project seed source scanned partition)

theorem step_spares (confined : Generation.Confined engine)
    (harmless : Harmless project seed options.destination Held base source scanned
      (progress.cache.partition source))
    (spares : base.Spares Held progress.workspace.disk) :
    base.Spares Held (step project engine seed options progress source scanned).workspace.disk := by
  have generated := stepGeneration_spares options confined harmless.generated spares
  have discards : Apart Held base (discarded project seed source scanned
      (progress.cache.partition source)) :=
    fun path member => harmless.replaced path (List.mem_cons_of_mem _ member)
  have rewritten : base.Spares Held
      (stepRewriting project engine seed options progress source scanned).2 :=
    writeRewritten_preserves (fun _ _ grows spares => spares.trans grows.spares)
      (fun _ _ _ wrote spares => spares_write_of_mem harmless.replaced List.mem_cons_self spares wrote)
      (pruned_preserves
        (fun _ member _ => spares_removeArtifact_of_mem discards harmless.linkless member) generated)
  rcases step_cases project engine seed options progress source scanned with
    ⟨cause, after, same, stepped⟩ | ⟨_, _, _, _, _, stepped⟩ | ⟨_, _, _, _, _, stepped⟩
  · rw [stepped]
    rwa [same] at generated
  · rw [stepped]
    exact rewritten
  · rw [stepped]
    exact rewritten

theorem Harmless.of_spares {Other : Place → Prop}
    (harmless : Harmless project seed options.destination Held base source scanned partition)
    (spares : base.Spares Other disk) :
    Harmless project seed options.destination Held disk source scanned partition where
  generated := fun path member =>
    (harmless.generated path member).imp_left fun direct => direct.of_links spares.links
  replaced := fun path member =>
    (harmless.replaced path member).imp_left fun direct => direct.of_links spares.links
  linkless := fun path member target link => harmless.linkless path member target (spares.links _ target link)

theorem step_partition {other : String} (different : other ≠ source) :
    Cache.partition (step project engine seed options progress source scanned).cache other =
      progress.cache.partition other := by
  rcases step_failed_or_done project engine seed options progress source scanned with
    ⟨cause, workspace, stepped⟩ | ⟨outcome, workspace, named, stepped⟩
  · rw [stepped, Progress.failed, Cache.partition_insert, if_neg different]
  · rw [stepped, Progress.done, Cache.partition_insert, named, if_neg different]

theorem steps_partition {list : List (String × SourceScan)} (absent : source ∉ list.map (·.1)) :
    Cache.partition (steps project engine seed options progress list).cache source =
      progress.cache.partition source := by
  refine steps_preserves
    (fun later => Cache.partition later.cache source = progress.cache.partition source) ?_ rfl
  intro pair member middle same
  rw [← same]
  apply step_partition
  rintro rfl
  exact absent (List.mem_map_of_mem member)

/-- In a list of different sources what stands around a source is about other ones. -/
theorem around_of_distinct {front back : List (String × SourceScan)} {pair : String × SourceScan}
    (distinct : ((front ++ pair :: back).map (·.1)).Nodup) :
    (front.map (·.1)).Nodup ∧ (back.map (·.1)).Nodup ∧ pair.1 ∉ front.map (·.1) ∧
      ∀ other ∈ back, other.1 ≠ pair.1 ∧ other.1 ∉ front.map (·.1) := by
  rw [List.map_append, List.map_cons] at distinct
  obtain ⟨distinctFront, rest, disjoint⟩ := List.nodup_append'.mp distinct
  obtain ⟨fresh, distinctBack⟩ := List.nodup_cons.mp rest
  refine ⟨distinctFront, distinctBack, fun early => disjoint early List.mem_cons_self, fun other member => ⟨?_, ?_⟩⟩
  · exact fun same => fresh (List.mem_map.mpr ⟨other, member, same⟩)
  · exact fun early => disjoint early (List.mem_cons_of_mem _ (List.mem_map_of_mem member))

theorem steps_spares {list : List (String × SourceScan)} (confined : Generation.Confined engine)
    (distinct : (list.map (·.1)).Nodup)
    (harmless : ∀ pair ∈ list, Harmless project seed options.destination Held base pair.1 pair.2
      (progress.cache.partition pair.1))
    (spares : base.Spares Held progress.workspace.disk) :
    base.Spares Held (steps project engine seed options progress list).workspace.disk := by
  refine steps_induction (fun later => base.Spares Held later.workspace.disk) ?_ spares
  intro front pair back split spares
  refine step_spares confined ?_ spares
  obtain ⟨_, _, absent, _⟩ := around_of_distinct (split ▸ distinct)
  rw [steps_partition absent]
  exact harmless pair (by simp [split])

/-! ## Artifacts that are removed -/

theorem fileless_removeArtifact {place : Place} (fileless : disk.Fileless place) :
    (removeArtifact disk path).Fileless place := by
  intro content stands
  rcases removeArtifact_cases disk path with same | ⟨gone, _, _, _, same⟩
  · exact fileless content (same ▸ stands)
  · rw [same, Disk.node?_erase] at stands
    split at stands
    · cases stands
    · split at stands
      · cases stands
      · exact fileless content stands

/-- A file that is removed is gone. -/
theorem removeArtifact_fileless (named : Disk.Named path) (direct : disk.Direct path)
    (leads : ∀ content, disk.node? (placeOf path) = some (.file content) → disk.Leads path (placeOf path)) :
    (removeArtifact disk path).Fileless (placeOf path) := by
  by_cases file : ∃ content, disk.node? (placeOf path) = some (.file content)
  · obtain ⟨content, stands⟩ := file
    have removed := Disk.removeFile_of_walks named ((leads content stands).unfollowed direct)
      (by rw [stands]; exact nofun)
    have below : placeOf path ≠ [] := by
      intro root
      rw [root, Disk.node?_root] at stands
      cases stands
    intro other also
    rw [removeArtifact, removed, Disk.node?_erase_self below] at also
    cases also
  · exact fileless_removeArtifact fun content stands => file ⟨content, stands⟩

theorem fileless_foldl_removeArtifact {paths : List Path} {place : Place} (fileless : disk.Fileless place) :
    (paths.foldl removeArtifact disk).Fileless place := by
  induction paths generalizing disk with
  | nil => exact fileless
  | cons first rest ih => exact ih (fileless_removeArtifact fileless)

theorem foldl_removeArtifact_fileless {paths : List Path} (apart : Apart Held base paths)
    (noLink : Linkless base paths) (member : path ∈ paths) (file : base.isFile path = true)
    (spares : base.Spares Held disk) : (paths.foldl removeArtifact disk).Fileless (placeOf path) := by
  induction paths generalizing disk with
  | nil => contradiction
  | cons first rest ih =>
      have direct := (apart path member).1
      rcases List.mem_cons.mp member with rfl | later
      · obtain ⟨named, place, leads, _⟩ := Disk.isFile_iff.mp file
        rw [direct.leads_eq leads] at leads
        rw [List.foldl_cons]
        apply fileless_foldl_removeArtifact
        exact removeArtifact_fileless named (direct.of_links spares.links)
          fun content stands => leads.of_keepsWays spares.ways ⟨_, stands, nofun⟩
      · exact ih (fun other inside => apart other (List.mem_cons_of_mem _ inside))
          (fun other inside => noLink other (List.mem_cons_of_mem _ inside)) later
          (spares_removeArtifact_of_mem apart noLink List.mem_cons_self spares)

/-- A source that is not written only has directories made after its stale artifacts are taken away. -/
theorem FailsLate.grows (late : FailsLate project engine seed options progress source scanned) :
    (pruned project seed source scanned (progress.cache.partition source)
      (stepGeneration project engine seed options progress source scanned).2.disk).Grows
        (step project engine seed options progress source scanned).workspace.disk := by
  obtain ⟨cause, stepped⟩ := step_of_failsLate late
  obtain ⟨_, _, failed⟩ := late
  rw [stepped, Progress.failed]
  dsimp only
  unfold stepRewriting rewriting at failed ⊢
  obtain ⟨middle, grown, ⟨_, same⟩ | ⟨_, _, _, same⟩⟩ :=
    writeRewritten_cases project options.destination source
    scanned (Plan.ofScan project seed source scanned (progress.cache.partition source)).records
    (pruned project seed source scanned (progress.cache.partition source)
      (stepGeneration project engine seed options progress source scanned).2.disk)
  · rw [same]
    exact grown
  · rw [same] at failed
    cases failed

/-- The places held apart from those that artifacts are taken away from. -/
def HeldBesides (Held : Place → Prop) (paths : List Path) (place : Place) : Prop :=
  Held place ∧ ∀ path ∈ paths, place ≠ placeOf path

theorem apart_heldBesides {paths : List Path} (direct : ∀ path ∈ paths, base.Direct path) :
    Apart (HeldBesides Held paths) base paths :=
  fun path member => ⟨direct path member, fun held => held.2 path member rfl⟩

theorem FailsLate.spares (late : FailsLate project engine seed options progress source scanned)
    (direct : ∀ path ∈ discarded project seed source scanned (progress.cache.partition source),
      base.Direct path)
    (linkless : Linkless base (discarded project seed source scanned (progress.cache.partition source)))
    (generated : base.Spares Held
      (stepGeneration project engine seed options progress source scanned).2.disk) :
    base.Spares (HeldBesides Held (discarded project seed source scanned (progress.cache.partition source)))
      (step project engine seed options progress source scanned).workspace.disk := by
  have removed := pruned_preserves
    (fun _ member _ => spares_removeArtifact_of_mem (apart_heldBesides direct) linkless member)
    (generated.mono fun _ held => held.1)
  exact removed.trans late.grows.spares

theorem FailsLate.fileless (late : FailsLate project engine seed options progress source scanned)
    (direct : ∀ path ∈ discarded project seed source scanned (progress.cache.partition source),
      base.Direct path)
    (linkless : Linkless base (discarded project seed source scanned (progress.cache.partition source)))
    (generated : base.Spares Held
      (stepGeneration project engine seed options progress source scanned).2.disk)
    (member : path ∈ discarded project seed source scanned (progress.cache.partition source))
    (file : base.isFile path = true) :
    (step project engine seed options progress source scanned).workspace.disk.Fileless (placeOf path) := by
  have everywhere : (pruned project seed source scanned (progress.cache.partition source)
      (stepGeneration project engine seed options progress source scanned).2.disk).Spares (fun _ => True)
        (step project engine seed options progress source scanned).workspace.disk := late.grows.spares
  refine everywhere.fileless trivial ?_
  exact foldl_removeArtifact_fileless (apart_heldBesides direct) linkless member file
    (generated.mono fun _ held => held.1)

theorem discarded_subset (project : Project) (seed source : String) (scanned : SourceScan)
    (partition : Partition) :
    discarded project seed source scanned partition ⊆ Partition.artifacts project source partition := by
  intro path member
  obtain ⟨hash, stale, inside⟩ := List.mem_flatMap.mp member
  obtain ⟨⟨known, found⟩, _⟩ := mem_stale.mp stale
  refine List.mem_flatMap.mpr ⟨hash, Table.mem_keys.mpr ⟨known, found⟩, ?_⟩
  rw [staleArtifacts, find?_recordEntries_of_known found] at inside
  rw [staleArtifacts, found]
  exact inside

/-- Where one source fails as it is written, its discarded artifacts are gone after all sources, and the
other places held are spared. -/
theorem steps_spares_late {front back : List (String × SourceScan)} (confined : Generation.Confined engine)
    (distinct : ((front ++ (source, scanned) :: back).map (·.1)).Nodup)
    (late : FailsLate project engine seed options (steps project engine seed options progress front) source
      scanned)
    (harmless : ∀ pair ∈ front ++ (source, scanned) :: back, pair.1 ≠ source →
      Harmless project seed options.destination Held base pair.1 pair.2 (progress.cache.partition pair.1))
    (generated : Apart Held base (generatedPaths project seed source scanned
      (progress.cache.partition source)))
    (direct : ∀ path ∈ discarded project seed source scanned (progress.cache.partition source),
      base.Direct path)
    (linkless : Linkless base (discarded project seed source scanned (progress.cache.partition source)))
    (files : ∀ path ∈ discarded project seed source scanned (progress.cache.partition source),
      base.isFile path = true ∧ Held (placeOf path))
    (spares : base.Spares Held progress.workspace.disk) :
    base.Spares (HeldBesides Held (discarded project seed source scanned (progress.cache.partition source)))
      (steps project engine seed options progress (front ++ (source, scanned) :: back)).workspace.disk ∧
    ∀ path ∈ discarded project seed source scanned (progress.cache.partition source),
      (steps project engine seed options progress
        (front ++ (source, scanned) :: back)).workspace.disk.Fileless (placeOf path) := by
  obtain ⟨distinctFront, distinctBack, absent, others⟩ := around_of_distinct distinct
  have same : Cache.partition (steps project engine seed options progress front).cache source =
      progress.cache.partition source := steps_partition absent
  have before : base.Spares Held (steps project engine seed options progress front).workspace.disk := by
    refine steps_spares confined distinctFront (fun pair member => ?_) spares
    refine harmless pair (List.mem_append_left _ member) ?_
    rintro rfl
    exact absent (List.mem_map.mpr ⟨pair, member, rfl⟩)
  rw [← same] at generated direct linkless files ⊢
  have made := stepGeneration_spares options confined generated before
  have ended := late.spares direct linkless made
  have rest : (step project engine seed options (steps project engine seed options progress front) source
      scanned).workspace.disk.Spares Held
        (steps project engine seed options progress (front ++ (source, scanned) :: back)).workspace.disk := by
    rw [steps_append, steps]
    refine steps_spares confined distinctBack (fun pair member => ?_) (.refl _)
    obtain ⟨other, later⟩ := others pair member
    rw [step_partition other, steps_partition later]
    exact (harmless pair (List.mem_append_right _ (List.mem_cons_of_mem _ member)) other).of_spares ended
  refine ⟨ended.trans (rest.mono fun _ held => held.1), fun path member => ?_⟩
  exact rest.fileless (files path member).2 (late.fileless direct linkless made member (files path member).1)

/-! ## Runs -/

/-- The files of a source: the source itself and the artifacts of its entries. -/
def holdings (project : Project) (disk : Disk) (source : String) : List Path :=
  project.workingDir.joinSlashed source ::
    Partition.artifacts project source (Cache.partition (Cache.load disk project) source)

/-- The paths that a run may touch, besides those that the step of one source replaces. -/
def touched (project : Project) (seed : String) (options : Run.Options) (sources : List String) (disk : Disk)
    (source : String) : List Path :=
  [Cache.path project, Cache.temporaryPath project] ++
    (if options.entrypoint then [project.entrypoint] else []) ++
    (filled disk project sources).flatMap fun pair =>
      let partition := Cache.partition (Cache.load disk project) pair.1
      generatedPaths project seed pair.1 pair.2 partition ++
        if pair.1 = source then []
        else replacedPaths project seed options.destination pair.1 pair.2 partition

/-- Whether the files of a source are its own: no link stands on the way to them or to what else a run
touches, nothing else names their places, and the source is none of its artifacts. -/
structure Separate (project : Project) (seed : String) (options : Run.Options) (sources : List String)
    (disk : Disk) (source : String) : Prop where
  direct : ∀ path ∈ touched project seed options sources disk source ++ holdings project disk source,
    disk.Direct path
  apart : ∀ path ∈ touched project seed options sources disk source,
    ∀ held ∈ holdings project disk source, placeOf path ≠ placeOf held
  own : ∀ path ∈ Partition.artifacts project source (Cache.partition (Cache.load disk project) source),
    placeOf path ≠ placeOf (project.workingDir.joinSlashed source)

/-- Whether both artifacts of every entry are on the disk. -/
def Intact (project : Project) (disk : Disk) : Prop :=
  ∀ source, ∀ path ∈ Partition.artifacts project source (Cache.partition (Cache.load disk project) source),
    disk.isFile path = true

/-- The places of the files of a source. -/
def HeldBy (project : Project) (disk : Disk) (source : String) (place : Place) : Prop :=
  ∃ path ∈ holdings project disk source, place = placeOf path

theorem Separate.apart_touched (separate : Separate project seed options sources disk source)
    {paths : List Path} (some : paths ⊆ touched project seed options sources disk source)
    (grows : disk.Grows base) : Apart (HeldBy project disk source) base paths := by
  intro path member
  refine ⟨(separate.direct path (List.mem_append_left _ (some member))).of_links grows.keeps.links, ?_⟩
  rintro ⟨held, inside, same⟩
  exact separate.apart path (some member) held inside same

theorem generatedPaths_subset {pair : String × SourceScan} (member : pair ∈ filled disk project sources) :
    generatedPaths project seed pair.1 pair.2 (Cache.partition (Cache.load disk project) pair.1) ⊆
      touched project seed options sources disk source := fun _ inside =>
  List.mem_append_right _ (List.mem_flatMap.mpr ⟨pair, member, List.mem_append_left _ inside⟩)

theorem replacedPaths_subset {pair : String × SourceScan} (member : pair ∈ filled disk project sources)
    (other : pair.1 ≠ source) :
    replacedPaths project seed options.destination pair.1 pair.2
        (Cache.partition (Cache.load disk project) pair.1) ⊆
      touched project seed options sources disk source := fun _ inside =>
  List.mem_append_right _ (List.mem_flatMap.mpr
    ⟨pair, member, List.mem_append_right _ (by rw [if_neg other]; exact inside)⟩)

theorem Intact.linkless (intact : Intact project disk) (grows : disk.Grows base)
    (direct : ∀ path ∈ discarded project seed source scanned
      (Cache.partition (Cache.load disk project) source), disk.Direct path) :
    Linkless base (discarded project seed source scanned
      (Cache.partition (Cache.load disk project) source)) := by
  intro path member target link
  obtain ⟨_, place, leads, node, stands, content, rfl⟩ := Disk.isFile_iff.mp
    (intact source path (discarded_subset project seed source scanned _ member))
  rw [(direct path member).leads_eq leads] at stands
  rw [grows.kept stands] at link
  cases link

theorem Separate.harmless (separate : Separate project seed options sources disk source)
    (intact : Intact project disk) (grows : disk.Grows base) {pair : String × SourceScan}
    (member : pair ∈ filled disk project sources) (other : pair.1 ≠ source) :
    Harmless project seed options.destination (HeldBy project disk source) base pair.1 pair.2
      (Cache.partition (Cache.load disk project) pair.1) where
  generated := separate.apart_touched (generatedPaths_subset member) grows
  replaced := separate.apart_touched (replacedPaths_subset member other) grows
  linkless := intact.linkless grows fun path inside => separate.direct path
    (List.mem_append_left _ (replacedPaths_subset member other (List.mem_cons_of_mem _ inside)))

theorem not_mem_processed (present : sources ≠ []) (real : options.dryRun = false)
    (ran : run project engine seed options sources workspace = (.ok report, after))
    (failed : source ∈ report.failures.map (·.source)) : source ∉ report.processed.map (·.source) := by
  have once := (reported_perm present real ran).nodup_iff.mpr (nodup_canonicalSources [] sources)
  intro processed
  exact (List.nodup_append'.mp once).2.2 (List.mem_append_left _ processed) failed

theorem steps_start_partition (engine : Engine) (seed : String) (options : Run.Options)
    {front back : List (String × SourceScan)} {pair : String × SourceScan}
    (split : filled workspace.disk project sources = front ++ pair :: back) :
    Cache.partition (steps project engine seed options (start project sources workspace) front).cache pair.1 =
      Cache.partition (Cache.load workspace.disk project) pair.1 := by
  obtain ⟨_, _, absent, _⟩ := around_of_distinct (split ▸ nodup_filled workspace.disk project sources)
  rw [steps_partition absent, start_cache]

section

variable (separate : Separate project seed options sources workspace.disk source)
  (intact : Intact project workspace.disk) (confined : Generation.Confined engine)
include separate intact confined

/-- When a source fails before it is written, no step touches its files. -/
theorem last_spares (present : sources ≠ []) (real : options.dryRun = false)
    (ran : run project engine seed options sources workspace = (.ok report, after))
    (failed : source ∈ report.failures.map (·.source))
    (written : ∀ scanned, ¬ FailsWriting project engine seed options sources workspace source scanned) :
    (ensureDirectories project workspace.disk).2.Spares (HeldBy project workspace.disk source)
      (last project engine seed options sources workspace).workspace.disk := by
  have grows := ensureDirectories_grows project workspace.disk
  unfold last
  refine steps_induction (fun later => (ensureDirectories project workspace.disk).2.Spares
    (HeldBy project workspace.disk source) later.workspace.disk) ?_ (by rw [start_disk]; exact .refl _)
  intro front pair back split spares
  have member : pair ∈ filled workspace.disk project sources := by simp [split]
  have same := steps_start_partition engine seed options split
  by_cases own : pair.1 = source
  · rcases step_cases project engine seed options
        (steps project engine seed options (start project sources workspace) front) pair.1 pair.2 with
      ⟨cause, middle, made, stepped⟩ | ⟨count, middle, cause, made, error, _⟩ | ⟨_, _, _, _, _, stepped⟩
    · have generated := separate.apart_touched (generatedPaths_subset member) grows
      rw [← same] at generated
      have kept := stepGeneration_spares options confined generated spares
      rw [stepped]
      rwa [made] at kept
    · exact absurd ⟨front, back, by rw [split, ← own], own ▸ ⟨⟨count, by rw [made]⟩, cause, error⟩⟩
        (written pair.2)
    · have processed := (report_of_step present real ran split).1
      rw [stepped] at processed
      refine absurd (List.mem_map.mpr ⟨_, processed (List.mem_append_right _ List.mem_cons_self), ?_⟩)
        (not_mem_processed present real ran failed)
      exact own
  · refine step_spares confined ?_ spares
    rw [same]
    exact separate.harmless intact grows member own

/-- When a source fails as it is written, the artifacts of its stale entries are gone, and no other of its
files is touched. -/
theorem last_spares_late (late : FailsWriting project engine seed options sources workspace source scanned) :
    (ensureDirectories project workspace.disk).2.Spares
      (HeldBesides (HeldBy project workspace.disk source) (discarded project seed source scanned
        (Cache.partition (Cache.load workspace.disk project) source)))
      (last project engine seed options sources workspace).workspace.disk ∧
    ∀ path ∈ discarded project seed source scanned
        (Cache.partition (Cache.load workspace.disk project) source),
      (last project engine seed options sources workspace).workspace.disk.Fileless (placeOf path) := by
  obtain ⟨front, back, split, failsLate⟩ := late
  have grows := ensureDirectories_grows project workspace.disk
  have member : (source, scanned) ∈ filled workspace.disk project sources := by simp [split]
  have distinct := nodup_filled workspace.disk project sources
  have own : ∀ path ∈ discarded project seed source scanned
      (Cache.partition (Cache.load workspace.disk project) source),
      path ∈ holdings project workspace.disk source := fun path inside =>
    List.mem_cons_of_mem _ (discarded_subset project seed source scanned _ inside)
  have direct := fun path inside => separate.direct path (List.mem_append_right _ (own path inside))
  have harmless : ∀ pair ∈ filled workspace.disk project sources, pair.1 ≠ source →
      Harmless project seed options.destination (HeldBy project workspace.disk source)
        (ensureDirectories project workspace.disk).2 pair.1 pair.2
        (Cache.partition (start project sources workspace).cache pair.1) := by
    rw [start_cache]
    exact fun pair inside other => separate.harmless intact grows inside other
  have spares : (ensureDirectories project workspace.disk).2.Spares (HeldBy project workspace.disk source)
      (start project sources workspace).workspace.disk := by
    rw [start_disk]
    exact .refl _
  rw [split] at distinct harmless
  have ended := steps_spares_late confined distinct failsLate harmless
    (by rw [start_cache]; exact separate.apart_touched (generatedPaths_subset member) grows)
    (by rw [start_cache]; exact fun path inside => (direct path inside).of_links grows.keeps.links)
    (by rw [start_cache]; exact intact.linkless grows direct)
    (by
      rw [start_cache]
      exact fun path inside => ⟨grows.keeps.isFile (intact source path
        (discarded_subset project seed source scanned _ inside)), path, own path inside, rfl⟩)
    spares
  rw [start_cache, ← split] at ended
  exact ended

/-- The files of a source that fails are spared, but for those that it was freed of in vain. -/
theorem last_spares_besides (present : sources ≠ []) (real : options.dryRun = false)
    (ran : run project engine seed options sources workspace = (.ok report, after))
    (failed : source ∈ report.failures.map (·.source)) :
    ∃ gone, gone ⊆ Partition.artifacts project source
        (Cache.partition (Cache.load workspace.disk project) source) ∧
      (ensureDirectories project workspace.disk).2.Spares
        (HeldBesides (HeldBy project workspace.disk source) gone)
        (last project engine seed options sources workspace).workspace.disk ∧
      ((¬ ∃ scanned, FailsWriting project engine seed options sources workspace source scanned ∧
        (Plan.ofScan project seed source scanned
          (Cache.partition (Cache.load workspace.disk project) source)).stale ≠ []) → gone = []) := by
  by_cases late : ∃ scanned, FailsWriting project engine seed options sources workspace source scanned
  · obtain ⟨scanned, late⟩ := late
    refine ⟨_, discarded_subset project seed source scanned _,
      (last_spares_late separate intact confined late).1, fun kept => ?_⟩
    have none : (Plan.ofScan project seed source scanned
        (Cache.partition (Cache.load workspace.disk project) source)).stale = [] := by
      by_contra some
      exact kept ⟨scanned, late, some⟩
    rw [discarded, none, List.flatMap_nil]
  · refine ⟨[], List.nil_subset _, ?_, fun _ => rfl⟩
    exact (last_spares separate intact confined present real ran failed
      fun scanned found => late ⟨scanned, found⟩).mono fun _ held => held.1

omit intact confined in
/-- The end of a run leaves the files of a source alone, and keeps the cache. -/
theorem finish_spares (present : sources ≠ []) (real : options.dryRun = false)
    (ran : run project engine seed options sources workspace = (.ok report, after))
    {Held : Place → Prop} (spares : (ensureDirectories project workspace.disk).2.Spares Held
      (last project engine seed options sources workspace).workspace.disk) :
    (last project engine seed options sources workspace).workspace.disk.Spares
      (HeldBy project workspace.disk source) after.disk ∧
    Cache.load after.disk project =
      (last project engine seed options sources workspace).cache.withoutEmpty := by
  obtain ⟨made, finished⟩ := run_eq_ok present real ran
  obtain ⟨cacheBase, opens⟩ := ensureDirectories_opens made
  have grows := ensureDirectories_grows project workspace.disk
  have document : ∀ name ∈ [Cache.fileName, Cache.fileName ++ ".tmp"],
      project.cacheDir.join ⟨name⟩ ∈ touched project seed options sources workspace.disk source := by
    intro name member
    refine List.mem_append_left _ (List.mem_append_left _ ?_)
    rcases List.mem_pair.mp member with rfl | rfl
    · exact List.mem_cons_self
    · exact List.mem_cons_of_mem _ List.mem_cons_self
  have places := fun name member => Cache.placeOf_join opens member
    ((separate.direct _ (List.mem_append_left _ (document name member))).of_links grows.keeps.links)
  have unlinked : Cache.Unlinked project (ensureDirectories project workspace.disk).2 := by
    intro base leads name member target
    cases leads.unique opens.1
    exact (places name member).2 target
  have apart : ∀ name ∈ [Cache.fileName, Cache.fileName ++ ".tmp"],
      ¬ HeldBy project workspace.disk source (cacheBase ++ [name]) := by
    rintro name member ⟨held, inside, same⟩
    exact separate.apart _ (document name member) held inside ((places name member).1.trans same)
  obtain ⟨ready, kept, ways, links, others, loaded⟩ := finish_saved
    ((last project engine seed options sources workspace).workspace.disk.Spares
      (HeldBy project workspace.disk source))
    (fun _ _ grows kept => kept.trans grows.spares)
    (fun wanted disk text written wrote kept => by
      have touches : project.entrypoint ∈ touched project seed options sources workspace.disk source :=
        List.mem_append_left _ (List.mem_append_right _ (by rw [if_pos wanted]; exact List.mem_cons_self))
      obtain ⟨direct, free⟩ := separate.apart_touched
        (List.cons_subset.mpr ⟨touches, List.nil_subset _⟩) grows project.entrypoint List.mem_cons_self
      exact kept.trans (Disk.spares_write ((direct.of_links spares.links).of_links kept.links) free wrote))
    (fun _ kept => spares.ways.trans kept.ways)
    (fun _ kept place target link => spares.links place target (kept.links place target link))
    opens unlinked (.refl _) finished
  refine ⟨kept.trans ⟨ways, links, fun place held => .inl (others place ?_ ?_)⟩, loaded⟩
  · rintro rfl
    exact apart _ List.mem_cons_self held
  · rintro rfl
    exact apart _ (List.mem_cons_of_mem _ List.mem_cons_self) held

end

/-- What `last_spares_besides` and `finish_spares` say together, on the disk that a run leaves. -/
theorem failed_source_kept_of_real (separate : Separate project seed options sources workspace.disk source)
    (present : sources ≠ []) (real : options.dryRun = false) (confined : Generation.Confined engine)
    (ran : run project engine seed options sources workspace = (.ok report, after))
    (failed : source ∈ report.failures.map (·.source)) (intact : Intact project workspace.disk) :
    Cache.partition (Cache.load after.disk project) source =
      Cache.partition (Cache.load workspace.disk project) source ∧
    (∀ content, workspace.disk.read (project.workingDir.joinSlashed source) = .ok content →
      after.disk.read (project.workingDir.joinSlashed source) = .ok content) ∧
    ((∀ path ∈ Partition.artifacts project source (Cache.partition (Cache.load workspace.disk project) source),
        ∀ content, workspace.disk.read path = .ok content → after.disk.read path = .ok content) ↔
      ¬ ∃ scanned, FailsWriting project engine seed options sources workspace source scanned ∧
        (Plan.ofScan project seed source scanned
          (Cache.partition (Cache.load workspace.disk project) source)).stale ≠ []) := by
  have grows := ensureDirectories_grows project workspace.disk
  obtain ⟨gone, artifacts, spares, complete⟩ :=
    last_spares_besides separate intact confined present real ran failed
  obtain ⟨ended, loaded⟩ := finish_spares separate present real ran spares
  have read : ∀ path ∈ holdings project workspace.disk source,
      (∀ other ∈ gone, Disk.placeOf path ≠ Disk.placeOf other) → ∀ content,
        workspace.disk.read path = .ok content → after.disk.read path = .ok content := by
    intro path member apart content readBefore
    have all := (grows.spares.trans spares).trans (ended.mono fun _ held => held.1)
    exact all.read (separate.direct path (List.mem_append_right _ member)) ⟨⟨path, member, rfl⟩, apart⟩
      readBefore
  refine ⟨?_, read _ List.mem_cons_self fun other inside => (separate.own other (artifacts inside)).symm,
    fun kept => ?_, fun kept path member => ?_⟩
  · obtain ⟨_, _, _, _, _, same⟩ := report_of_run present real ran
    rw [loaded, Cache.partition_withoutEmpty, same source (not_mem_processed present real ran failed)]
  · rintro ⟨scanned, late, stale⟩
    obtain ⟨hash, inStale⟩ := List.exists_mem_of_ne_nil _ stale
    have discarded : (project.location source hash).module ∈ discarded project seed source scanned
        (Cache.partition (Cache.load workspace.disk project) source) :=
      List.mem_flatMap.mpr ⟨hash, inStale, List.mem_append_right _ List.mem_cons_self⟩
    have member := discarded_subset project seed source scanned _ discarded
    have direct := separate.direct _ (List.mem_append_right _ (List.mem_cons_of_mem _ member))
    obtain ⟨named, place, leads, _, stands, content, rfl⟩ := Disk.isFile_iff.mp (intact source _ member)
    have readAfter := kept _ member content (Disk.read_eq_ok_iff.mpr ⟨named, place, leads, stands⟩)
    have lost := (last_spares_late separate intact confined late).2 _ discarded
    refine (ended.fileless ⟨_, List.mem_cons_of_mem _ member, rfl⟩ lost).read ?_ readAfter
    exact ((direct.of_links grows.keeps.links).of_links spares.links).of_links ended.links
  · refine read path (List.mem_cons_of_mem _ member) ?_
    rw [complete kept]
    exact nofun

end Run

/-- A source that fails keeps its partition and stays as it is. All artifacts of its entries stay as they
are exactly when it is not the case that the source was freed of stale artifacts and could then not be
written. It is assumed of the disk, where faults come from the paths alone, that a write that fails leaves the
file whole. -/
theorem failed_source_kept (confined : Generation.Confined engine)
    (ran : run project engine seed options sources workspace = (.ok report, after))
    (failed : source ∈ report.failures.map (·.source)) (intact : Run.Intact project workspace.disk)
    (separate : Run.Separate project seed options sources workspace.disk source) :
    Cache.partition (Cache.load after.disk project) source =
      Cache.partition (Cache.load workspace.disk project) source ∧
    (∀ content, workspace.disk.read (project.workingDir.joinSlashed source) = .ok content →
      after.disk.read (project.workingDir.joinSlashed source) = .ok content) ∧
    ((∀ path ∈ Partition.artifacts project source (Cache.partition (Cache.load workspace.disk project) source),
        ∀ content, workspace.disk.read path = .ok content → after.disk.read path = .ok content) ↔
      ¬ (options.dryRun = false ∧ ∃ scanned,
        Run.FailsWriting project engine seed options sources workspace source scanned ∧
          (Plan.ofScan project seed source scanned
            (Cache.partition (Cache.load workspace.disk project) source)).stale ≠ [])) := by
  have present : sources ≠ [] := by
    rintro rfl
    cases ran
    contradiction
  cases real : options.dryRun with
  | true =>
      -- A run that is only planned leaves the workspace as it was.
      have same := Run.run_dry present real ran
      subst same
      exact ⟨rfl, fun _ readBefore => readBefore, fun _ planned => Bool.false_ne_true planned.1.symm,
        fun _ _ _ _ readBefore => readBefore⟩
  | false =>
      obtain ⟨partition, content, artifacts⟩ :=
        Run.failed_source_kept_of_real separate present real confined ran failed intact
      refine ⟨partition, content, artifacts.trans (not_congr ?_)⟩
      exact ⟨fun late => ⟨rfl, late⟩, fun late => late.2⟩

theorem confined_blankEngine : Generation.Confined blankEngine := by
  intro request disk module declaration
  obtain ⟨_, same⟩ | ⟨written, first, ⟨_, same⟩ | ⟨last, second, same⟩⟩ := blankEngine_cases request disk
  · rw [same]
    exact .refl disk
  · rw [same]
    exact Disk.spares_write module (fun held => held.1 rfl) first
  · have wrote : disk.Spares
        (fun place => place ≠ placeOf request.module ∧ place ≠ placeOf request.declaration) written :=
      Disk.spares_write module (fun held => held.1 rfl) first
    rw [same]
    exact wrote.trans
      (Disk.spares_write (declaration.of_links wrote.links) (fun held => held.2 rfl) second)

/-- A disk with an entry that its source has no use for, and a file where sources are to be written. -/
def obstructedDisk : Disk :=
  ⟨[(["a.ts"], .file Run.smallSource.toUTF8), (["o"], .file "".toUTF8), (["d.ts"], .file "".toUTF8),
    (["c"], .directory), (["c", "t"], .directory), (["c", "t", "a.ts-0.tsx"], .file "".toUTF8),
    (["c", "literals.json"],
      .file "\x7b\x22a.ts\x22:\x7b\x220\x22:[\x22d.ts\x22,\x22\x22]\x7d\x7d".toUTF8)]⟩

/-- A run that leaves generating for later. -/
def deferredOptions : Run.Options := { Run.smallOptions with timing := .deferred }

theorem obstructedDisk_entries :
    Partition.artifacts Run.smallProject "a.ts"
      (Cache.partition (Cache.load obstructedDisk Run.smallProject) "a.ts") =
        [⟨"/d.ts"⟩, ⟨"/c/t/a.ts-0.tsx"⟩] ∧
    (Cache.load obstructedDisk Run.smallProject).keys = ["a.ts"] ∧
    ∀ path ∈ [(⟨"/d.ts"⟩ : Path), ⟨"/c/t/a.ts-0.tsx"⟩], obstructedDisk.isFile path = true := by
  decide +kernel

theorem intact_obstructedDisk : Run.Intact Run.smallProject obstructedDisk := by
  intro source path member
  obtain ⟨artifacts, keys, files⟩ := obstructedDisk_entries
  by_cases same : source = "a.ts"
  · rw [same, artifacts] at member
    exact files path member
  · have none : (Cache.load obstructedDisk Run.smallProject).find? source = none := by
      rw [← Option.not_isSome_iff_eq_none, Option.isSome_iff_exists, ← Table.mem_keys, keys]
      simpa using same
    rw [Cache.partition, none] at member
    contradiction

theorem obstructedDisk_noLink (place : Place) (target : String) :
    obstructedDisk.node? place ≠ some (.link target) := by
  intro stands
  unfold Disk.node? at stands
  split at stands
  · cases stands
  · simp only [obstructedDisk, Disk.lookup_cons, List.lookup_nil] at stands
    split_ifs at stands <;> cases stands

theorem obstructedDisk_places :
    let touched := [["c", "literals.json"], ["c", "literals.json.tmp"],
      ["c", "t", "a.ts-" ++ fingerprint "" "a" ++ ".tsx"], ["t", "a.ts-" ++ fingerprint "" "a" ++ ".d.ts"]]
    let held := [["a.ts"], ["d.ts"], ["c", "t", "a.ts-0.tsx"]]
    (Run.touched Run.smallProject "" deferredOptions ["a.ts"] obstructedDisk "a.ts").map placeOf = touched ∧
      (Run.holdings Run.smallProject obstructedDisk "a.ts").map placeOf = held ∧
      (∀ place ∈ touched, ∀ other ∈ held, place ≠ other) ∧
      ∀ path ∈ [(⟨"/d.ts"⟩ : Path), ⟨"/c/t/a.ts-0.tsx"⟩],
        placeOf path ≠ placeOf (Run.smallProject.workingDir.joinSlashed "a.ts") := by
  decide +kernel

theorem separate_obstructedDisk :
    Run.Separate Run.smallProject "" deferredOptions ["a.ts"] obstructedDisk "a.ts" where
  direct := fun path _ => Disk.clear_of_noLink obstructedDisk_noLink [] (Disk.pathNames path.text)
  apart := by
    intro path member held inside
    obtain ⟨touched, holdings, different, _⟩ := obstructedDisk_places
    exact different _ (touched ▸ List.mem_map_of_mem member) _ (holdings ▸ List.mem_map_of_mem inside)
  own := by
    rw [obstructedDisk_entries.1]
    exact obstructedDisk_places.2.2.2

theorem obstructedRun_outcome :
    let outcome := run Run.smallProject blankEngine "" deferredOptions ["a.ts"] ⟨obstructedDisk, []⟩
    outcome.1.toOption.map (fun report => report.failures.map (·.source)) = some ["a.ts"] ∧
      outcome.2.disk.isFile ⟨"/d.ts"⟩ = false := by
  decide +kernel

theorem failed_source_kept_obstructed :
    ∃ report after,
      run Run.smallProject blankEngine "" deferredOptions ["a.ts"] ⟨obstructedDisk, []⟩ = (.ok report, after) ∧
      "a.ts" ∈ report.failures.map (·.source) ∧
      Cache.partition (Cache.load after.disk Run.smallProject) "a.ts" =
        Cache.partition (Cache.load obstructedDisk Run.smallProject) "a.ts" ∧
      (∀ content, obstructedDisk.read (Run.smallProject.workingDir.joinSlashed "a.ts") = .ok content →
        after.disk.read (Run.smallProject.workingDir.joinSlashed "a.ts") = .ok content) ∧
      ((∀ path ∈ Partition.artifacts Run.smallProject "a.ts"
            (Cache.partition (Cache.load obstructedDisk Run.smallProject) "a.ts"),
          ∀ content, obstructedDisk.read path = .ok content → after.disk.read path = .ok content) ↔
        ¬ (deferredOptions.dryRun = false ∧ ∃ scanned,
          Run.FailsWriting Run.smallProject blankEngine "" deferredOptions ["a.ts"] ⟨obstructedDisk, []⟩
              "a.ts" scanned ∧
            (Plan.ofScan Run.smallProject "" "a.ts" scanned
              (Cache.partition (Cache.load obstructedDisk Run.smallProject) "a.ts")).stale ≠ [])) := by
  have failures := obstructedRun_outcome.1
  cases ran : run Run.smallProject blankEngine "" deferredOptions ["a.ts"] ⟨obstructedDisk, []⟩ with
  | mk result after =>
      rw [ran] at failures
      cases result with
      | error cause => cases failures
      | ok report =>
          have only : report.failures.map (·.source) = ["a.ts"] := Option.some.inj failures
          have failed : "a.ts" ∈ report.failures.map (·.source) := by
            rw [only]
            exact List.mem_cons_self
          obtain ⟨partition, content, artifacts⟩ := failed_source_kept confined_blankEngine ran failed
            intact_obstructedDisk separate_obstructedDisk
          dsimp only at partition content artifacts
          exact ⟨report, after, rfl, failed, partition, content, artifacts⟩

/-- A source that cannot be written loses the artifacts of its stale entries. -/
theorem failed_source_loses_artifacts :
    ∃ report after,
      run Run.smallProject blankEngine "" deferredOptions ["a.ts"] ⟨obstructedDisk, []⟩ = (.ok report, after) ∧
      Run.Intact Run.smallProject obstructedDisk ∧ "a.ts" ∈ report.failures.map (·.source) ∧
      ∃ path ∈ Partition.artifacts Run.smallProject "a.ts"
          (Cache.partition (Cache.load obstructedDisk Run.smallProject) "a.ts"),
        obstructedDisk.isFile path = true ∧ after.disk.isFile path = false := by
  have lost := obstructedRun_outcome
  cases ran : run Run.smallProject blankEngine "" deferredOptions ["a.ts"] ⟨obstructedDisk, []⟩ with
  | mk result after =>
      rw [ran] at lost
      obtain ⟨failures, gone⟩ := lost
      cases result with
      | error cause => cases failures
      | ok report =>
          have only : report.failures.map (·.source) = ["a.ts"] := Option.some.inj failures
          obtain ⟨artifacts, _, files⟩ := obstructedDisk_entries
          refine ⟨report, after, rfl, intact_obstructedDisk, ?_, ⟨"/d.ts"⟩, ?_, files _ List.mem_cons_self, gone⟩
          · rw [only]
            exact List.mem_cons_self
          · rw [artifacts]
            exact List.mem_cons_self

end TypedLiterals
