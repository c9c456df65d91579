import TypedLiterals.Proofs.Generation.Run

/-!
How a run updates the cache.

A source that goes through all steps keeps the entries that it still uses and gains one for each literal
that had none. All other partitions are kept, and what is on the disk after a run is exactly this, as long
as the run finds no link in the place of the cache document or of a new one.
-/

namespace TypedLiterals

variable {project : Project} {engine : Engine} {seed : String} {options : Run.Options}
  {sources : List String} {workspace after : Workspace} {progress : Run.Progress} {report : Report}
  {source hash : String} {scanned : SourceScan} {partition : Partition}

/-! ## Partitions -/

/-- The fingerprints that a source calls or imports. -/
def SourceScan.hashesInUse (seed : String) (scanned : SourceScan) : List String :=
  scanned.occurrences.map (fun occurrence => fingerprint seed occurrence.literal) ++ scanned.importedHashes

/-- The entry of a source under a hash once it was processed: the entry it had, if the hash is still in
use, and else the text of the last call with this fingerprint. -/
def Partition.entryAfter (project : Project) (seed source : String) (scanned : SourceScan)
    (partition : Partition) (hash : String) : Option KnownLiteral :=
  match partition.find? hash with
  | some known => if hash ∈ scanned.hashesInUse seed then some known else none
  | none =>
    (scanned.occurrences.reverse.find? fun occurrence => fingerprint seed occurrence.literal = hash).map
      fun occurrence => ⟨(project.location source hash).declarationRel, occurrence.literal⟩

/-- A processed source has an entry for each of its literals. -/
theorem Partition.exists_entryAfter {occurrence : Occurrence} (member : occurrence ∈ scanned.occurrences) :
    ∃ known, Partition.entryAfter project seed source scanned partition
      (fingerprint seed occurrence.literal) = some known := by
  unfold Partition.entryAfter
  cases old : partition.find? (fingerprint seed occurrence.literal) with
  | some known =>
      have used : fingerprint seed occurrence.literal ∈ scanned.hashesInUse seed :=
        List.mem_append_left _ (List.mem_map_of_mem member)
      exact ⟨known, if_pos used⟩
  | none =>
      have some : (scanned.occurrences.reverse.find? fun other =>
          fingerprint seed other.literal = fingerprint seed occurrence.literal).isSome := by
        rw [List.find?_isSome]
        exact ⟨occurrence, List.mem_reverse.mpr member, decide_eq_true rfl⟩
      obtain ⟨other, found⟩ := Option.isSome_iff_exists.mp some
      exact ⟨_, by rw [found, Option.map_some]⟩

namespace Run

theorem lookup_map {α β : Type} (list : List α) (key : α → String) (value : α → β) (wanted : String) :
    (list.map fun element => (key element, value element)).lookup wanted =
      (list.find? fun element => key element = wanted).map value := by
  induction list with
  | nil => rfl
  | cons first rest ih =>
      rw [List.map_cons, Table.lookup_cons, ih, List.find?_cons]
      by_cases same : wanted = key first
      · simp [same]
      · simp [same, Ne.symm same]

theorem find?_recordEntries (partition : Partition) (records : List Record) (hash : String) :
    (recordEntries partition records).find? hash =
      ((records.reverse.find? fun record => !record.skip && record.hash = hash).map fun record =>
        (⟨record.location.declarationRel, record.literal⟩ : KnownLiteral)).or (partition.find? hash) := by
  have folded : recordEntries partition records =
      ((records.filter (!·.skip)).map fun record =>
        (record.hash, (⟨record.location.declarationRel, record.literal⟩ : KnownLiteral))).foldl
          (fun table entry => table.insert entry.1 entry.2) partition := by
    rw [List.foldl_map]
    rfl
  rw [folded, Table.find?_foldl_insert, ← List.map_reverse, lookup_map, ← List.filter_reverse,
    List.find?_filter]
  simp only [Bool.decide_and, Bool.decide_eq_true]

theorem records_ofScan (project : Project) (seed source : String) (scanned : SourceScan)
    (partition : Partition) :
    (Plan.ofScan project seed source scanned partition).records =
      scanned.occurrences.map (Plan.record project seed source partition) := rfl

theorem seen_ofScan (project : Project) (seed source : String) (scanned : SourceScan)
    (partition : Partition) :
    Plan.seen (Plan.ofScan project seed source scanned partition).records scanned =
      scanned.hashesInUse seed := by
  rw [Plan.seen, records_ofScan, List.map_map]
  rfl

theorem mem_stale :
    hash ∈ (Plan.ofScan project seed source scanned partition).stale ↔
      (∃ known, partition.find? hash = some known) ∧ hash ∉ scanned.hashesInUse seed := by
  rw [← seen_ofScan project seed source scanned partition, ← Table.mem_keys]
  simp [Plan.ofScan]

theorem find?_recordEntries_of_known {known : KnownLiteral} (found : partition.find? hash = some known) :
    (recordEntries partition (Plan.ofScan project seed source scanned partition).records).find? hash =
      some known := by
  have none : (Plan.ofScan project seed source scanned partition).records.reverse.find?
      (fun record => !record.skip && record.hash = hash) = none := by
    rw [List.find?_eq_none]
    intro record member
    obtain ⟨occurrence, _, rfl⟩ := List.mem_map.mp (List.mem_reverse.mp member)
    rw [Bool.and_eq_true, Bool.not_eq_true', decide_eq_true_eq]
    rintro ⟨unknown, same⟩
    have skipped : partition.contains hash = true := Table.contains_eq_true.mpr ⟨known, found⟩
    rw [← same] at skipped
    exact Bool.false_ne_true (unknown.symm.trans skipped)
  rw [find?_recordEntries, none, found]
  rfl

theorem record_hash (occurrence : Occurrence) :
    (Plan.record project seed source partition occurrence).hash = fingerprint seed occurrence.literal := rfl

theorem record_skip (occurrence : Occurrence) :
    (Plan.record project seed source partition occurrence).skip =
      partition.contains (fingerprint seed occurrence.literal) := rfl

theorem record_location (occurrence : Occurrence) :
    (Plan.record project seed source partition occurrence).location =
      project.location source (fingerprint seed occurrence.literal) := rfl

theorem find?_recordEntries_of_unknown (unknown : partition.find? hash = none) :
    (recordEntries partition (Plan.ofScan project seed source scanned partition).records).find? hash =
      (scanned.occurrences.reverse.find? fun occurrence => fingerprint seed occurrence.literal = hash).map
        fun occurrence => ⟨(project.location source hash).declarationRel, occurrence.literal⟩ := by
  rw [find?_recordEntries, unknown, Option.or_none, records_ofScan, ← List.map_reverse, List.find?_map,
    Option.map_map]
  have wanted : (fun record : Record => !record.skip && decide (record.hash = hash)) ∘
        Plan.record project seed source partition =
      fun occurrence => decide (fingerprint seed occurrence.literal = hash) := by
    funext occurrence
    rw [Function.comp_apply, record_skip, record_hash]
    by_cases same : fingerprint seed occurrence.literal = hash
    · have fresh : partition.contains hash = false := by
        rw [← Bool.not_eq_true, Table.contains_eq_true, unknown]
        simp
      rw [same, fresh]
      rfl
    · simp [same]
  rw [wanted]
  apply Option.map_congr
  intro occurrence last
  have same : fingerprint seed occurrence.literal = hash := by
    have found := List.find?_some last
    rwa [decide_eq_true_eq] at found
  rw [Function.comp_apply, record_location, same]
  rfl

theorem find?_updated (project : Project) (seed source : String) (scanned : SourceScan)
    (partition : Partition) (hash : String) :
    (updated project seed source scanned partition).find? hash =
      Partition.entryAfter project seed source scanned partition hash := by
  rw [updated, Table.find?_foldl_erase, Partition.entryAfter]
  cases found : partition.find? hash with
  | some known =>
      rw [find?_recordEntries_of_known found]
      by_cases used : hash ∈ scanned.hashesInUse seed
      · rw [if_neg fun stale => (mem_stale.mp stale).2 used]
        simp [used]
      · rw [if_pos (mem_stale.mpr ⟨⟨known, found⟩, used⟩)]
        simp [used]
  | none =>
      have kept : hash ∉ (Plan.ofScan project seed source scanned partition).stale := by
        intro stale
        obtain ⟨known, also⟩ := (mem_stale.mp stale).1
        rw [found] at also
        cases also
      rw [if_neg kept, find?_recordEntries_of_unknown found]

/-! ## All sources of a run -/

/-- What steps over different sources do to the report and the cache: each source is processed or fails,
and only those that are processed get another partition. -/
theorem steps_eq (project : Project) (engine : Engine) (seed : String) (options : Run.Options)
    {list : List (String × SourceScan)} (distinct : (list.map (·.1)).Nodup) (progress : Progress) :
    ∃ done failed,
      (steps project engine seed options progress list).report =
        { progress.report with
          processed := progress.report.processed ++ done
          failures := progress.report.failures ++ failed } ∧
      (done.map (·.source) ++ failed.map (·.source)).Perm (list.map (·.1)) ∧
      (∀ pair ∈ list, pair.1 ∈ done.map (·.source) →
        Cache.partition (steps project engine seed options progress list).cache pair.1 =
          updated project seed pair.1 pair.2 (progress.cache.partition pair.1)) ∧
      ∀ source, source ∉ done.map (·.source) →
        Cache.partition (steps project engine seed options progress list).cache source =
          progress.cache.partition source := by
  -- The sources are different, so the first step changes no partition that a later one answers for, and no later
  -- step changes the partition of the first.
  induction list generalizing progress with
  | nil => exact ⟨[], [], by simp [steps], by simp, nofun, fun _ _ => rfl⟩
  | cons pair rest ih =>
      obtain ⟨first, scanned⟩ := pair
      rw [List.map_cons, List.nodup_cons] at distinct
      dsimp only at distinct
      obtain ⟨done, failed, reported, listed, changed, kept⟩ :=
        ih distinct.2 (step project engine seed options progress first scanned)
      rw [steps]
      have different : ∀ pair ∈ rest, pair.1 ≠ first := fun pair member same =>
        distinct.1 (same ▸ List.mem_map_of_mem member)
      have fresh : first ∉ done.map (·.source) := fun member =>
        distinct.1 (listed.subset (List.mem_append_left _ member))
      rcases step_failed_or_done project engine seed options progress first scanned with
        ⟨cause, workspace, stepped⟩ | ⟨outcome, workspace, rfl, stepped⟩
      · have same : ∀ source,
            Cache.partition (step project engine seed options progress first scanned).cache source =
              progress.cache.partition source := by
          intro source
          rw [stepped, Progress.failed, Cache.partition_insert]
          split
          · next equal => rw [equal]
          · rfl
        refine ⟨done, ⟨first, cause⟩ :: failed, ?_, ?_, ?_, ?_⟩
        · rw [reported, stepped]
          simp [Progress.failed]
        · exact List.perm_middle.trans (listed.cons first)
        · intro pair member processed
          rcases List.mem_cons.mp member with rfl | later
          · exact absurd processed fresh
          · rw [changed pair later processed, same]
        · intro source unprocessed
          rw [kept source unprocessed, same]
      · have others : ∀ source, source ≠ outcome.source →
            Cache.partition (step project engine seed options progress outcome.source scanned).cache source =
              progress.cache.partition source := by
          intro source other
          rw [stepped, Progress.done, Cache.partition_insert, if_neg other]
        refine ⟨outcome :: done, failed, ?_, ?_, ?_, ?_⟩
        · rw [reported, stepped]
          simp [Progress.done]
        · exact listed.cons _
        · intro pair member processed
          rcases List.mem_cons.mp member with rfl | later
          · rw [kept _ fresh, stepped, Progress.done, Cache.partition_insert, if_pos rfl]
          · have other := different pair later
            have inDone : pair.1 ∈ done.map (·.source) :=
              (List.mem_cons.mp processed).resolve_left other
            rw [changed pair later inDone, others _ other]
        · intro source unprocessed
          rw [List.map_cons, List.mem_cons, not_or] at unprocessed
          rw [kept source unprocessed.2, others source unprocessed.1]

/-! ## On the disk -/

/-- The disk on which a run writes the cache document, with the directory of the document made. -/
def beforeSave (project : Project) (engine : Engine) (seed : String) (options : Run.Options)
    (sources : List String) (workspace : Workspace) : Disk :=
  let written := (withEntrypoint project options (last project engine seed options sources workspace)).2
  (written.ensureParent (Cache.path project)).2

theorem save_of_run (present : sources ≠ []) (real : options.dryRun = false)
    (unlinked : Cache.Unlinked project (beforeSave project engine seed options sources workspace))
    (ran : run project engine seed options sources workspace = (.ok report, after)) :
    Cache.load after.disk project =
      Cache.withoutEmpty (last project engine seed options sources workspace).cache := by
  obtain ⟨_, finished⟩ := run_eq_ok present real ran
  obtain ⟨_, _, saved, _⟩ := finish_eq_ok finished
  obtain ⟨_, _, _, _, _, loaded⟩ := Cache.save_eq_ok unlinked saved
  exact loaded

/-- A run makes no link by itself. -/
theorem links_last (answers : ∀ request (disk : Disk) place target,
      (engine request disk).2.node? place = some (.link target) → disk.node? place = some (.link target))
    {place : Disk.Place} {target : String}
    (link : (last project engine seed options sources workspace).workspace.disk.node? place = some (.link target)) :
    workspace.disk.node? place = some (.link target) := by
  suffices kept : ∀ place target, (last project engine seed options sources workspace).workspace.disk.node? place =
      some (.link target) → workspace.disk.node? place = some (.link target) from kept place target link
  have grows : ∀ before after : Disk, before.Grows after →
      (∀ place target, before.node? place = some (.link target) → workspace.disk.node? place = some (.link target)) →
      ∀ place target, after.node? place = some (.link target) → workspace.disk.node? place = some (.link target) :=
    fun _ _ grown kept place target stands => kept place target (grown.keeps.links place target stands)
  unfold last
  refine steps_preserves (fun progress => ∀ place target, progress.workspace.disk.node? place = some (.link target) →
    workspace.disk.node? place = some (.link target)) (fun pair _ progress kept => ?_) ?_
  · refine step_preserves grows ?_ ?_ ?_ kept
    · exact fun _ _ _ disk kept place target stands => kept place target (answers _ disk place target stands)
    · intro path _ disk kept place target stands
      rcases removeArtifact_cases disk path with same | ⟨_, _, _, _, same⟩
      · exact kept place target (same ▸ stands)
      · exact kept place target (Disk.links_erase (same ▸ stands))
    · exact fun _ _ _ wrote kept place target stands =>
        kept place target ((Disk.keeps_write wrote).links place target stands)
  · rw [start_disk]
    exact (ensureDirectories_grows project workspace.disk).keeps.links

/-- Where no link is called like the cache document or a new one, the document is written in its own place. -/
theorem unlinked_beforeSave (answers : ∀ request (disk : Disk) place target,
      (engine request disk).2.node? place = some (.link target) → disk.node? place = some (.link target))
    (free : ∀ base, ∀ name ∈ [Cache.fileName, Cache.fileName ++ ".tmp"], ∀ target,
      workspace.disk.node? (base ++ [name]) ≠ some (.link target))
    (ran : run project engine seed options sources workspace = (.ok report, after)) (present : sources ≠ [])
    (real : options.dryRun = false) :
    Cache.Unlinked project (beforeSave project engine seed options sources workspace) := by
  intro base _ name member target link
  obtain ⟨_, finished⟩ := run_eq_ok present real ran
  obtain ⟨_, made, _⟩ := finish_eq_ok finished
  have written := (Disk.ensureParent_grows _ (Cache.path project)).keeps.links _ _ link
  suffices stands : (last project engine seed options sources workspace).workspace.disk.node? (base ++ [name]) =
      some (.link target) from free base name member target (links_last answers stands)
  rcases withEntrypoint_eq_ok made with ⟨_, _, same⟩ | ⟨_, _, wrote⟩
  · rwa [same] at written
  · obtain ⟨middle, _, grown, put⟩ := entrypoint_write_grows wrote
    exact grown.keeps.links _ _ ((Disk.keeps_write put).links _ _ written)

/-- What a run that succeeds reports, and how the cache that it keeps differs from the one that it loaded. -/
theorem report_of_run (present : sources ≠ []) (real : options.dryRun = false)
    (ran : run project engine seed options sources workspace = (.ok report, after)) :
    report.unchanged =
      ((scans workspace.disk project sources).filter (·.2.occurrences.isEmpty)).map (·.1) ∧
    ∃ failed, report.failures = (scanFiles workspace.disk project (canonicalSources [] sources)).2 ++ failed ∧
      (report.processed.map (·.source) ++ failed.map (·.source)).Perm
        ((filled workspace.disk project sources).map (·.1)) ∧
      (∀ pair ∈ filled workspace.disk project sources, pair.1 ∈ report.processed.map (·.source) →
        Cache.partition (last project engine seed options sources workspace).cache pair.1 =
          updated project seed pair.1 pair.2 (Cache.partition (Cache.load workspace.disk project) pair.1)) ∧
      ∀ source, source ∉ report.processed.map (·.source) →
        Cache.partition (last project engine seed options sources workspace).cache source =
          Cache.partition (Cache.load workspace.disk project) source := by
  obtain ⟨_, finished⟩ := run_eq_ok present real ran
  obtain ⟨_, _, _, reported, _⟩ := finish_eq_ok finished
  obtain ⟨done, failed, steps, listed, changed, kept⟩ := steps_eq project engine seed options
    (nodup_filled workspace.disk project sources) (start project sources workspace)
  rw [← last] at steps changed kept
  rw [start_cache] at changed kept
  rw [steps, start_report] at reported
  obtain ⟨_, rfl⟩ := reported
  exact ⟨rfl, failed, rfl, listed, changed, kept⟩

/-- A run that succeeds reports every source once. -/
theorem reported_perm (present : sources ≠ []) (real : options.dryRun = false)
    (ran : run project engine seed options sources workspace = (.ok report, after)) :
    (report.processed.map (·.source) ++ report.unchanged ++ report.failures.map (·.source)).Perm
      (canonicalSources [] sources) := by
  obtain ⟨unchanged, failed, failures, listed, _, _⟩ := report_of_run present real ran
  rw [unchanged, failures, List.map_append]
  refine List.Perm.trans ?_ (filled_perm workspace.disk project sources)
  refine List.Perm.trans ?_ ((listed.append_right _).append_right _)
  simp only [List.append_assoc]
  refine List.Perm.append_left _ ?_
  rw [← List.append_assoc]
  exact List.perm_append_comm

theorem entries_of_processed (present : sources ≠ []) (real : options.dryRun = false)
    (ran : run project engine seed options sources workspace = (.ok report, after))
    (member : source ∈ report.processed.map (·.source)) :
    ∃ scanned, scanFile workspace.disk project source = .ok scanned ∧ scanned.occurrences ≠ [] ∧
      ∀ hash, (Cache.partition (last project engine seed options sources workspace).cache source).find? hash =
        Partition.entryAfter project seed source scanned
          (Cache.partition (Cache.load workspace.disk project) source) hash := by
  obtain ⟨_, failed, _, listed, changed, _⟩ := report_of_run present real ran
  obtain ⟨pair, inFilled, rfl⟩ := List.mem_map.mp (listed.subset (List.mem_append_left _ member))
  refine ⟨pair.2, scanFile_of_mem_filled inFilled, ?_, fun hash => ?_⟩
  · simpa using (List.mem_filter.mp inFilled).2
  · rw [changed pair inFilled member, find?_updated]

theorem partition_of_processed (present : sources ≠ []) (real : options.dryRun = false)
    (unlinked : Cache.Unlinked project (beforeSave project engine seed options sources workspace))
    (ran : run project engine seed options sources workspace = (.ok report, after))
    (member : source ∈ report.processed.map (·.source)) :
    ∃ scanned, scanFile workspace.disk project source = .ok scanned ∧ scanned.occurrences ≠ [] ∧
      ∀ hash, (Cache.partition (Cache.load after.disk project) source).find? hash =
        Partition.entryAfter project seed source scanned
          (Cache.partition (Cache.load workspace.disk project) source) hash := by
  rw [save_of_run present real unlinked ran, Cache.partition_withoutEmpty]
  exact entries_of_processed present real ran member

end Run

/-- A run that succeeds updates the cache on the disk source by source, unless it finds a link in the place of the
cache document or of a new one. Each source is reported once. One that was processed has the entries that are still
in use and one for each new literal; all others have what they had, and no empty partition is kept. -/
theorem run_updates_cache (present : sources ≠ []) (real : options.dryRun = false)
    (unlinked : Cache.Unlinked project (Run.beforeSave project engine seed options sources workspace))
    (ran : run project engine seed options sources workspace = (.ok report, after)) :
    (report.processed.map (·.source) ++ report.unchanged ++ report.failures.map (·.source)).Nodup ∧
    (∀ source, source ∈ report.processed.map (·.source) ++ report.unchanged ++
      report.failures.map (·.source) ↔ source ∈ sources.map Path.slashed) ∧
    (∀ source ∈ report.processed.map (·.source), ∃ scanned,
      Run.scanFile workspace.disk project source = .ok scanned ∧ scanned.occurrences ≠ [] ∧
      ∀ hash, (Cache.partition (Cache.load after.disk project) source).find? hash =
        Partition.entryAfter project seed source scanned
          (Cache.partition (Cache.load workspace.disk project) source) hash) ∧
    (∀ source, source ∉ report.processed.map (·.source) →
      Cache.partition (Cache.load after.disk project) source =
        Cache.partition (Cache.load workspace.disk project) source) ∧
    ∀ source partition, (Cache.load after.disk project).find? source = some partition →
      partition.isEmpty = false := by
  have perm := Run.reported_perm present real ran
  have loaded := Run.save_of_run present real unlinked ran
  refine ⟨perm.nodup_iff.mpr (Run.nodup_canonicalSources [] sources), fun source => ?_, ?_, ?_, ?_⟩
  · rw [perm.mem_iff, Run.mem_canonicalSources]
    simp
  · exact fun source member => Run.partition_of_processed present real unlinked ran member
  · intro source member
    obtain ⟨_, _, _, _, _, kept⟩ := Run.report_of_run present real ran
    rw [loaded, Cache.partition_withoutEmpty, kept source member]
  · intro source partition found
    rw [loaded, Cache.find?_withoutEmpty, Option.filter_eq_some_iff] at found
    simpa using found.2

open Run in
theorem run_updates_cache_small :
    ∃ report after scanned,
      run smallProject blankEngine "" smallOptions ["a.ts"] ⟨smallDisk, []⟩ = (.ok report, after) ∧
      scanFile smallDisk smallProject "a.ts" = .ok scanned ∧ scanned.occurrences ≠ [] ∧
      ∀ hash, (Cache.partition (Cache.load after.disk smallProject) "a.ts").find? hash =
        Partition.entryAfter smallProject "" "a.ts" scanned
          (Cache.partition (Cache.load smallDisk smallProject) "a.ts") hash := by
  have reported := smallRun_report
  cases ran : run smallProject blankEngine "" smallOptions ["a.ts"] ⟨smallDisk, []⟩ with
  | mk result after =>
      rw [ran] at reported
      cases result with
      | error cause => cases reported
      | ok report =>
          have only := (Prod.mk.inj (Option.some.inj reported)).1
          have unlinked := unlinked_beforeSave (fun request disk => (faithful_blankEngine.keeps request disk).links)
            (fun _ _ _ => smallDisk_noLink _) ran (by decide) rfl
          obtain ⟨_, _, updated, _⟩ := run_updates_cache (by decide) rfl unlinked ran
          obtain ⟨scanned, found, literals, entries⟩ := updated "a.ts" (by simp [only])
          exact ⟨report, after, scanned, rfl, found, literals, entries⟩

/-- A disk on which the place for a new document is a link to the document. -/
def linkedDisk : Disk :=
  ⟨[(["c"], .directory),
    (["c", "literals.json"],
      .file "\x7b\x22b\x22:\x7b\x220\x22:[\x22d\x22,\x22\x22]\x7d\x7d".toUTF8),
    (["c", "literals.json.tmp"], .link "literals.json")]⟩

open Run in
/-- A link at the place for a new document can cost the whole cache: the link is moved over the document
that it leads to, and leads to itself from then on. -/
theorem run_loses_cache_linked :
    ∃ report after,
      run smallProject blankEngine "" smallOptions ["a.ts"] ⟨linkedDisk, []⟩ = (.ok report, after) ∧
      "b" ∉ ["a.ts"].map Path.slashed ∧
      (Cache.partition (Cache.load linkedDisk smallProject) "b").isEmpty = false ∧
      (Cache.partition (Cache.load after.disk smallProject) "b").isEmpty := by
  have lost :
      let outcome := run smallProject blankEngine "" smallOptions ["a.ts"] ⟨linkedDisk, []⟩
      outcome.1.isOk ∧ (Cache.partition (Cache.load linkedDisk smallProject) "b").isEmpty = false ∧
        (Cache.partition (Cache.load outcome.2.disk smallProject) "b").isEmpty := by decide +kernel
  cases ran : run smallProject blankEngine "" smallOptions ["a.ts"] ⟨linkedDisk, []⟩ with
  | mk result after =>
      rw [ran] at lost
      cases result with
      | error cause => exact absurd lost.1 (by simp [Except.isOk, Except.toBool])
      | ok report => exact ⟨report, after, rfl, by decide +kernel, lost.2.1, lost.2.2⟩

end TypedLiterals
