import Mathlib.Data.List.Flatten
import TypedLiterals.Proofs.Generation.Room

/-!
Generating later.

A run that leaves generating for later does the same to everything but the artifacts, and reports what is to be
generated. When that is generated at once for all sources, each literal is asked for as often as when the run
generates itself, and the same is left on the disk.
-/

namespace TypedLiterals

open Disk (Place placeOf above)

variable {project : Project} {engine : Engine} {seed : String} {options : Run.Options} {base : Disk}
  {sources : List String} {workspace after : Workspace} {records front back : List Record}

/-! ## Generating for many sources at once -/

namespace Generation

theorem missingFrom_filter (seen : List (String × String)) (records : List Record) :
    missingFrom seen (records.filter (!·.skip)) = missingFrom seen records := by
  induction records generalizing seen with
  | nil => rfl
  | cons first rest ih =>
      cases skip : first.skip with
      | true =>
          rw [List.filter_cons_of_neg (by simp [skip]), ih, missingFrom, if_pos (by simp [skip])]
      | false =>
          rw [List.filter_cons_of_pos (by simp [skip]), missingFrom, missingFrom]
          simp only [skip, Bool.false_or, ih]

/-- Only what has been seen of the records themselves matters. -/
theorem missingFrom_congr {seen others : List (String × String)}
    (same : ∀ record ∈ records, (record.source, record.hash) ∈ seen ↔ (record.source, record.hash) ∈ others) :
    missingFrom seen records = missingFrom others records := by
  induction records generalizing seen others with
  | nil => rfl
  | cons first rest ih =>
      have known : seen.contains (first.source, first.hash) = others.contains (first.source, first.hash) := by
        rw [Bool.eq_iff_iff, List.contains_iff_mem, List.contains_iff_mem]
        exact same first List.mem_cons_self
      have later := fun record member => same record (List.mem_cons_of_mem _ member)
      have again : missingFrom ((first.source, first.hash) :: seen) rest =
          missingFrom ((first.source, first.hash) :: others) rest :=
        ih fun record member => by rw [List.mem_cons, List.mem_cons, later record member]
      rw [missingFrom, missingFrom, known, ih later, again]

/-- Records of different sources are generated apart from each other. -/
theorem missingFrom_append (seen : List (String × String))
    (apart : ∀ record ∈ front, ∀ other ∈ back, record.source ≠ other.source) :
    missingFrom seen (front ++ back) = missingFrom seen front ++ missingFrom seen back := by
  induction front generalizing seen with
  | nil => rfl
  | cons first rest ih =>
      have later := fun seen => ih seen fun record member => apart record (List.mem_cons_of_mem _ member)
      rw [List.cons_append, missingFrom, missingFrom, later, later]
      split
      · rfl
      · rw [List.cons_append]
        congr 2
        refine missingFrom_congr fun other member => ?_
        rw [List.mem_cons, or_iff_right]
        exact fun same => apart first List.mem_cons_self other member (Prod.mk.inj same).1.symm

/-- Generating for records whose artifacts are apart does what each of them alone would have done. -/
theorem generateAll_leaves
    (performs : ∀ record ∈ records, (effect project engine base record).Performs base.node?
      (answer project engine base record) (generate project engine record))
    (apart : (records.map (effect project engine base)).Pairwise Effect.Apart)
    (fits : ∀ record ∈ records, (effect project engine base record).Fits base.node? workspace.disk.node?) :
    (generateAll project engine records workspace).1 = records.map (answer project engine base) ∧
      Effect.Leaves (records.map (effect project engine base)) workspace
        (generateAll project engine records workspace).2 := by
  induction records generalizing workspace with
  | nil => exact ⟨rfl, .refl _⟩
  | cons first rest ih =>
      obtain ⟨across, apartRest⟩ := List.pairwise_cons.mp apart
      obtain ⟨answered, leaves⟩ := performs first List.mem_cons_self workspace (fits first List.mem_cons_self)
      obtain ⟨answers, leavesRest⟩ := ih (fun record member => performs record (List.mem_cons_of_mem _ member))
        apartRest fun record member => by
          refine leaves.fits (fits record (List.mem_cons_of_mem _ member)) fun other listed => ?_
          rw [List.mem_singleton.mp listed]
          exact (across _ (List.mem_map_of_mem member)).symm
      rw [generateAll_cons, answers, answered]
      exact ⟨rfl, leaves.trans leavesRest⟩

end Generation

/-! ## Runs that generate at once and later -/

namespace Run

variable {list : List Job} {job : Job}

/-- The options of a run that generates itself. -/
def Options.inline (options : Run.Options) : Run.Options := { options with timing := .inline }

/-- The options of the same run that leaves generating for later. -/
def Options.deferred (options : Run.Options) : Run.Options := { options with timing := .deferred }

theorem Uncrowded.deferred (uncrowded : Uncrowded project seed options.inline list base) :
    Uncrowded project seed options.deferred list base where
  roomy := by
    refine uncrowded.roomy.mono (List.Sublist.subset (List.Sublist.append_right ?_ _))
    exact List.Sublist.flatMap_right list fun job _ => List.sublist_append_right _ _
  vacant := uncrowded.vacant
  removable := uncrowded.removable
  beside := by
    refine uncrowded.beside.sublist (List.Sublist.append_right ?_ _)
    refine List.Sublist.flatMap_right list fun job _ => ?_
    exact (List.sublist_append_right _ _).flatten

theorem result_of_ok (ok : ∀ record ∈ job.pending project seed options,
      Generation.answer project engine base record = .ok ()) :
    job.result project engine seed options base =
      rewriteAnswer project seed options.destination base job.source job.scanned job.partition := by
  have all : Generation.firstError (job.answers project engine seed options base) = .ok () :=
    Generation.firstError_of_ok (List.forall_mem_map.mpr ok)
  rw [Job.result, all]
  rfl

theorem due_of_ok (ok : ∀ record ∈ job.pending project seed options,
      Generation.answer project engine base record = .ok ()) :
    job.due project engine seed options base = job.generations project engine seed options base ++
      job.closing project seed options base := by
  have all : Generation.firstError (job.answers project engine seed options base) = .ok () :=
    Generation.firstError_of_ok (List.forall_mem_map.mpr ok)
  rw [Job.due, all]

/-- What is reported of a source that was written. -/
def Job.outcome (project : Project) (seed : String) (options : Run.Options) (job : Job) : ProcessedSource :=
  ⟨job.source, (job.plan project seed).records, (job.pending project seed options).length,
    (job.plan project seed).stale, some (rewritePath project options.destination job.source)⟩

/-- What is noted of sources that can all be written. -/
theorem noted_of_ok (progress : Progress)
    (ok : ∀ job ∈ list, job.result project engine seed options base =
      .ok (rewritePath project options.destination job.source)) :
    noted project engine seed options base list progress =
      { progress with
        report := { progress.report with
          processed := progress.report.processed ++ list.map (·.outcome project seed options) }
        cache := list.foldl (fun cache job => cache.insert job.source
          (updated project seed job.source job.scanned job.partition)) progress.cache } := by
  unfold noted
  induction list generalizing progress with
  | nil => simp
  | cons first rest ih =>
      rw [List.map_cons, List.foldl_cons, ok first List.mem_cons_self,
        ih _ fun job member => ok job (List.mem_cons_of_mem _ member), List.map_cons, List.foldl_cons]
      simp [note, Progress.done, Job.outcome]

theorem sources_of_pending {record : Record} (member : record ∈ (job.plan project seed).records) :
    record.source = job.source := by
  rw [Job.plan, records_ofScan] at member
  obtain ⟨occurrence, _, rfl⟩ := List.mem_map.mp member
  rfl

theorem missingFrom_records (distinct : (list.map (·.source)).Nodup) :
    Generation.missingFrom [] (list.flatMap fun job => (job.plan project seed).records) =
      list.flatMap fun job => Generation.missingFrom [] (job.plan project seed).records := by
  induction list with
  | nil => rfl
  | cons first rest ih =>
      obtain ⟨fresh, distinct⟩ := List.nodup_cons.mp distinct
      rw [List.flatMap_cons, List.flatMap_cons, Generation.missingFrom_append, ih distinct]
      intro record member other also same
      obtain ⟨job, listed, inside⟩ := List.mem_flatMap.mp also
      rw [sources_of_pending member, sources_of_pending inside] at same
      exact fresh (List.mem_map.mpr ⟨job, listed, same.symm⟩)

theorem nodup_jobs (project : Project) (sources : List String) (disk : Disk) :
    ((jobs project sources disk).map (·.source)).Nodup := by
  simpa [jobs, List.map_map, Function.comp_def] using nodup_filled disk project sources

theorem missingFrom_pending {report : Report} (distinct : (list.map (·.source)).Nodup)
    (processed : report.processed = list.map (·.outcome project seed options)) :
    Generation.missingFrom [] report.pending =
      list.flatMap fun job => Generation.missingFrom [] (job.plan project seed).records := by
  rw [Report.pending, Generation.missingFrom_filter, Report.records, processed, List.flatMap_map]
  exact missingFrom_records distinct

theorem generated_of_processed {report : Report}
    (processed : report.processed = list.map (·.outcome project seed options)) :
    report.generated = (list.flatMap (·.pending project seed options)).length := by
  rw [Report.generated, processed, List.length_flatMap, List.map_map, ← List.sum_eq_foldl_nat]
  rfl

/-- The cache once all sources are processed. -/
def allUpdated (project : Project) (seed : String) (list : List Job) (cache : Cache) : Cache :=
  list.foldl (fun cache job =>
    cache.insert job.source (updated project seed job.source job.scanned job.partition)) cache

/-- What a run comes to when all its sources can be generated for and written. -/
theorem run_comes (present : sources ≠ []) (real : options.dryRun = false) (local_ : Generation.Local engine)
    (spacious : Spacious project seed options sources workspace.disk)
    (fulfilled : ∀ job ∈ jobs project sources workspace.disk, ∀ record ∈ job.pending project seed options,
        Generation.answer project engine (ensureDirectories project workspace.disk).2 record = .ok ())
    (written : ∀ job ∈ jobs project sources workspace.disk,
      rewriteAnswer project seed options.destination (ensureDirectories project workspace.disk).2 job.source
        job.scanned job.partition = .ok (rewritePath project options.destination job.source)) :
    ∃ report after, run project engine seed options sources workspace = (.ok report, after) ∧
      report.processed = (jobs project sources workspace.disk).map (·.outcome project seed options) ∧
      Effect.Leaves
        (allEffects project engine seed options (ensureDirectories project workspace.disk).2
            (jobs project sources workspace.disk) ++
          [endEffect project options (allUpdated project seed (jobs project sources workspace.disk)
            (Cache.load workspace.disk project))]) (start project sources workspace).workspace after := by
  have interleaves : Interleaves project engine seed options sources workspace
      (run project engine seed options sources workspace) := interleaves_run present real spacious.prepared
  obtain ⟨after, ran, leaves⟩ := interleaves.comes spacious.uncrowded local_ (fun effect _ => .refl effect _)
    spacious.uncrowded.closable
  have ok := fun job member => (result_of_ok (fulfilled job member)).trans (written job member)
  have noted := noted_of_ok (start project sources workspace) ok
  have due : allDue project engine seed options (ensureDirectories project workspace.disk).2
      (jobs project sources workspace.disk) = allEffects project engine seed options
        (ensureDirectories project workspace.disk).2 (jobs project sources workspace.disk) :=
    List.flatMap_congr fun job member => due_of_ok (fulfilled job member)
  refine ⟨_, after, ran, ?_, ?_⟩
  · rw [notedReport, noted, start_report]
    rfl
  · rw [noted, due, start_cache] at leaves
    exact leaves

end Run

open Run in
/-- A run that leaves generating for later, followed by generating what it reports, leaves the same on the disk
and asks the engine for the same as the run that generates itself, and counts as many calls. -/
theorem deferred_run_refines (real : options.dryRun = false) (local_ : Generation.Local engine)
    (spacious : Spacious project seed options.inline sources workspace.disk)
    (fulfilled : ∀ job ∈ jobs project sources workspace.disk,
      ∀ record ∈ job.pending project seed options.inline,
        Generation.answer project engine (ensureDirectories project workspace.disk).2 record = .ok ())
    (written : ∀ job ∈ jobs project sources workspace.disk,
      rewriteAnswer project seed options.destination (ensureDirectories project workspace.disk).2 job.source
        job.scanned job.partition = .ok (rewritePath project options.destination job.source)) :
    ∃ report after deferred middle last,
      run project engine seed options.inline sources workspace = (.ok report, after) ∧
      run project engine seed options.deferred sources workspace = (.ok deferred, middle) ∧
      generateMissing project engine deferred.pending middle = (.ok report.generated, last) ∧
      last.disk.node? = after.disk.node? ∧ last.requests.Perm after.requests := by
  by_cases present : sources = []
  · subst present
    exact ⟨{}, workspace, {}, workspace, workspace, rfl, rfl, rfl, rfl, .refl _⟩
  have now : options.inline.dryRun = false := real
  have later : options.deferred.dryRun = false := real
  have uncrowded := spacious.uncrowded
  obtain ⟨report, after, ran, processed, leaves⟩ := run_comes present now local_ spacious fulfilled written
  obtain ⟨deferred, middle, ranLater, processedLater, leavesLater⟩ := run_comes present later local_
    ⟨spacious.prepared, uncrowded.deferred⟩ nofun written
  have pending : Generation.missingFrom [] deferred.pending =
      (jobs project sources workspace.disk).flatMap (·.pending project seed options.inline) :=
    missingFrom_pending (nodup_jobs project sources workspace.disk) processedLater
  have total := generated_of_processed processed
  have begun := start_disk project sources workspace
  generalize jobs project sources workspace.disk = list at *
  generalize (ensureDirectories project workspace.disk).2 = base at *
  generalize allUpdated project seed list (Cache.load workspace.disk project) = cache at *
  generalize start project sources workspace = first at *
  subst begun
  have generations : (list.flatMap (·.pending project seed options.inline)).map
      (Generation.effect project engine first.workspace.disk) =
        list.flatMap (·.generations project engine seed options.inline first.workspace.disk) :=
    List.map_flatMap ..
  have same : (allEffects project engine seed options.deferred first.workspace.disk list ++
      [endEffect project options cache] ++ list.flatMap
        (·.generations project engine seed options.inline first.workspace.disk)).Perm
        (allEffects project engine seed options.inline first.workspace.disk list ++
          [endEffect project options cache]) := by
    have grouped := List.flatMap_append_perm list
      (·.generations project engine seed options.inline first.workspace.disk)
      (·.closing project seed options.inline first.workspace.disk)
    refine List.perm_append_comm.trans ?_
    rw [← List.append_assoc]
    exact grouped.append_right _
  have apart := (same.pairwise_iff fun apart => Effect.Apart.symm apart).mpr (uncrowded.apart engine cache)
  obtain ⟨_, apartGenerations, across⟩ := List.pairwise_append.mp apart
  rw [← generations] at same apart apartGenerations across
  obtain ⟨answers, generated⟩ := Generation.generateAll_leaves
    (fun record member => by
      obtain ⟨job, listed, inside⟩ := List.mem_flatMap.mp member
      exact (uncrowded.doable local_ listed).generate record inside) apartGenerations
    fun record member => leavesLater.fits (.refl _ _) fun other done =>
      (across other done _ (List.mem_map_of_mem member)).symm
  have all := (leavesLater.trans generated).perm apart same
  refine ⟨report, after, deferred, middle, (generateMissing project engine deferred.pending middle).2, ran,
    ranLater, ?_, ?_, ?_⟩
  · have ok : Generation.firstError ((list.flatMap (·.pending project seed options.inline)).map
        (Generation.answer project engine first.workspace.disk)) = .ok () :=
      Generation.firstError_of_ok (List.forall_mem_map.mpr fun record member => by
        obtain ⟨job, listed, inside⟩ := List.mem_flatMap.mp member
        exact fulfilled job listed record inside)
    rw [total, generateMissing, pending]
    dsimp only
    rw [answers, ok]
    rfl
  · rw [generateMissing, pending]
    exact all.nodes.trans leaves.nodes.symm
  · rw [generateMissing, pending]
    exact all.requests.trans leaves.requests.symm

open Run in
theorem deferred_run_refines_pair :
    ∃ report after deferred middle last,
      run smallProject blankEngine "" (Options.inline {}) ["a.ts", "b.ts"] ⟨pairDisk, []⟩ = (.ok report, after) ∧
      run smallProject blankEngine "" (Options.deferred {}) ["a.ts", "b.ts"] ⟨pairDisk, []⟩ =
        (.ok deferred, middle) ∧
      generateMissing smallProject blankEngine deferred.pending middle = (.ok report.generated, last) ∧
      last.disk.node? = after.disk.node? ∧ last.requests.Perm after.requests := by
  have tasks := pairRun_tasks.2.2.2
  exact deferred_run_refines rfl local_blankEngine spacious_pairDisk
    (fun job member record pending => eq_ok_of_toOption ((tasks job member).2.2 record pending))
    fun job member => eq_ok_of_toOption (tasks job member).2.1

/-- A disk with a source in which one literal call stands inside another one. -/
def nestedDisk : Disk :=
  ⟨[(["a.ts"], .file "import{gql}from'graphql-let';gql<\x7b[gql(\x60b\x60)]:1\x7d>(\x60a\x60)".toUTF8)]⟩

open Run in
/-- A source that cannot be rewritten is generated for at once or not at all: what is left for later is only what
was processed. -/
theorem nested_calls_not_deferred :
    ∃ report after deferred middle count last,
      run smallProject blankEngine "" (Options.inline {}) ["a.ts"] ⟨nestedDisk, []⟩ = (.ok report, after) ∧
      run smallProject blankEngine "" (Options.deferred {}) ["a.ts"] ⟨nestedDisk, []⟩ = (.ok deferred, middle) ∧
      generateMissing smallProject blankEngine deferred.pending middle = (.ok count, last) ∧
      last.disk.node? ≠ after.disk.node? ∧ ¬ last.requests.Perm after.requests := by
  have outcome :
      let now := run smallProject blankEngine "" (Options.inline {}) ["a.ts"] ⟨nestedDisk, []⟩
      let later := run smallProject blankEngine "" (Options.deferred {}) ["a.ts"] ⟨nestedDisk, []⟩
      let module := (smallProject.location "a.ts" (fingerprint "" "a")).module
      now.1.toOption.map (·.generated) = some 0 ∧ later.1.toOption.map (·.pending) = some [] ∧
        now.2.requests.length = 2 ∧ later.2.requests.length = 0 ∧
        now.2.disk.node? (placeOf module) ≠ later.2.disk.node? (placeOf module) := by
    decide +kernel
  obtain ⟨began, left, asked, none, different⟩ := outcome
  obtain ⟨report, after, ran, _⟩ := exists_of_outcome began
  obtain ⟨deferred, middle, ranLater, pending⟩ := exists_of_outcome left
  rw [ran] at asked different
  rw [ranLater] at none different
  refine ⟨report, after, deferred, middle, 0, middle, ran, ranLater, ?_, fun same => ?_, fun same => ?_⟩
  · rw [pending]
    rfl
  · exact different (congrFun same _).symm
  · have lengths := same.length_eq
    rw [asked, none] at lengths
    cases lengths

end TypedLiterals
