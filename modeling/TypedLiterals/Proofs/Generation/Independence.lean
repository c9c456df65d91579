import TypedLiterals.Proofs.Generation.OneByOne

/-!
Sources that do not depend on each other.

Runs over one source at a time come, source by source, to what every run over all of them comes to, in whatever
order the tasks of that run are done: the tasks are the same, and the cache and the entrypoint that a run leaves
are those that the next one begins with.
-/

namespace TypedLiterals

open Disk (placeOf way)

variable {project : Project} {engine : Engine} {seed : String} {options : Run.Options} {base : Disk}
  {sources order rest done : List String} {workspace now after : Workspace} {source : String} {cache : Cache}

namespace Run

variable {list : List Job}

/-! ## One more source -/

theorem inOrderOf_concat (list : List Job) (order : List String) (source : String) :
    inOrderOf list (order ++ [source]) = inOrderOf list order ++ list.filter (·.source = source) := by
  rw [inOrderOf, List.flatMap_append, List.flatMap_singleton, ← inOrderOf]

theorem allDue_append (front back : List Job) :
    allDue project engine seed options base (front ++ back) =
      allDue project engine seed options base front ++ allDue project engine seed options base back :=
  List.flatMap_append

theorem nodup_sources_jobs (project : Project) (sources : List String) (disk : Disk) :
    ((jobs project sources disk).map (·.source)).Nodup := by
  simpa [jobs, List.map_map, Function.comp_def] using nodup_filled disk project sources

variable (project engine seed options base sources workspace) in
/-- A run notes of each source what the work on it came to, and leaves the others as they were known. -/
theorem partition_noted_jobs :
    (∀ job ∈ jobs project sources workspace.disk,
      (noted project engine seed options base (jobs project sources workspace.disk)
        (start project sources workspace)).cache.partition job.source = job.kept project engine seed options base) ∧
    ∀ source, source ∉ (jobs project sources workspace.disk).map (·.source) →
      (noted project engine seed options base (jobs project sources workspace.disk)
        (start project sources workspace)).cache.partition source =
          (Cache.load workspace.disk project).partition source := by
  have distinct := nodup_sources_jobs project sources workspace.disk
  have known : ∀ job ∈ jobs project sources workspace.disk,
      job.partition = (start project sources workspace).cache.partition job.source := by
    intro job inside
    obtain ⟨pair, _, rfl⟩ := List.mem_map.mp inside
    rw [start_cache]
  refine ⟨(partition_noted distinct known).1, fun source absent => ?_⟩
  rw [(partition_noted distinct known).2 source absent, start_cache]

theorem source_of_job (canonical : ∀ source ∈ sources, Path.slashed source = source) {disk : Disk} {job : Job}
    (inside : job ∈ jobs project sources disk) : job.source ∈ sources := by
  obtain ⟨pair, listed, rfl⟩ := List.mem_map.mp inside
  obtain ⟨source, member, same⟩ := List.mem_map.mp (mem_slashed_of_mem_filled listed)
  rw [canonical source member] at same
  exact same ▸ member

/-- The tasks of a source that is still to come are apart from what is left of those that are done. -/
theorem Uncrowded.apart_left (uncrowded : Uncrowded project seed options list base) (engine : Engine)
    (cache : Cache) (distinct : done.Nodup) (fresh : source ∉ done) :
    ∀ effect ∈ allEffects project engine seed options base (list.filter (·.source = source)),
      ∀ other ∈ allDue project engine seed options base (inOrderOf list done) ++
        [endEffect project options cache], Effect.Apart effect other := by
  obtain ⟨all, _, across⟩ := List.pairwise_append.mp (uncrowded.apart engine cache)
  -- The work on this source and on those that are done is part of all the work.
  have part := inOrderOf_perm list (List.nodup_cons.mpr ⟨fresh, distinct⟩)
  rw [inOrderOf, List.flatMap_cons, ← inOrderOf] at part
  have parts : (allEffects project engine seed options base
      (list.filter (·.source = source) ++ inOrderOf list done)).Pairwise Effect.Apart := by
    have ordered := ((part.flatMap_right fun job => job.effects project engine seed options base).pairwise_iff
      fun apart => Effect.Apart.symm apart).mpr all
    rw [List.flatMap_append] at ordered
    exact (List.pairwise_append.mp ordered).1
  rw [allEffects, List.flatMap_append] at parts
  obtain ⟨_, _, between⟩ := List.pairwise_append.mp parts
  intro effect member other left
  rcases List.mem_append.mp left with due | last
  · exact between effect member other ((allDue_subperm _).subset due)
  · refine across effect ?_ other last
    obtain ⟨job, listed, inside⟩ := List.mem_flatMap.mp member
    exact List.mem_flatMap.mpr ⟨job, List.mem_of_mem_filter listed, inside⟩

variable (real : options.dryRun = false) (local_ : Generation.Local engine)
  (spacious : Spacious project seed options sources workspace.disk)
  (canonical : ∀ source ∈ sources, Path.slashed source = source) (distinct : sources.Nodup)

variable (project engine seed options sources workspace) in
/-- What is reported of all sources together. -/
def wholeReport : Report :=
  notedReport project engine seed options (ensureDirectories project workspace.disk).2
    (jobs project sources workspace.disk) (start project sources workspace)

section

variable (reached : Reached project engine seed options sources workspace done now)
  (member : source ∈ sources) (fresh : source ∉ done)

include canonical distinct reached member fresh in
theorem Reached.jobs_eq :
    jobs project [source] now.disk = (jobs project sources workspace.disk).filter (·.source = source) :=
  jobs_one canonical distinct member (reached.scanned source member fresh)
    (reached.remembers.left source fun _ _ _ => fresh)

include canonical distinct reached member fresh in
/-- What the run over the next source reports is what is reported of it among all. -/
theorem Reached.report_eq :
    notedReport project engine seed options (ensureDirectories project workspace.disk).2
        (jobs project [source] now.disk) (start project [source] now) =
      (wholeReport project engine seed options sources workspace).about source := by
  have begun := start_report_one canonical distinct member (reached.scanned source member fresh) now.requests
    workspace.requests
  rw [reached.jobs_eq canonical distinct member fresh, wholeReport, notedReport, notedReport,
    ← about_noted _ begun]
  rfl

include canonical distinct reached member fresh in
/-- The run over the next source remembers what it came to, and all else that was remembered. -/
theorem Reached.remembers_next :
    Remembers project engine seed options sources workspace (done ++ [source])
      (noted project engine seed options (ensureDirectories project workspace.disk).2
        (jobs project [source] now.disk) (start project [source] now)).cache := by
  have jobs_eq := reached.jobs_eq canonical distinct member fresh
  obtain ⟨kept, others⟩ := partition_noted_jobs project engine seed options
    (ensureDirectories project workspace.disk).2 [source] now
  have absent : ∀ other, other ≠ source → other ∉ (jobs project [source] now.disk).map (·.source) := by
    intro other different inside
    obtain ⟨job, listed, rfl⟩ := List.mem_map.mp inside
    rw [jobs_eq] at listed
    exact different (of_decide_eq_true (List.mem_filter.mp listed).2)
  refine ⟨fun job listed inside => ?_, fun other idle => ?_⟩
  · by_cases same : job.source = source
    · exact kept job (by rw [jobs_eq]; exact List.mem_filter.mpr ⟨listed, decide_eq_true same⟩)
    · rw [others _ (absent _ same)]
      refine reached.remembers.finished job listed ?_
      simpa [same] using inside
  · have before : (Cache.load now.disk project).partition other =
        (Cache.load workspace.disk project).partition other :=
      reached.remembers.left other fun job listed same inside =>
        idle job listed same (List.mem_append_left _ inside)
    rw [others other, before]
    intro inside
    obtain ⟨job, listed, same⟩ := List.mem_map.mp inside
    rw [jobs_eq] at listed
    obtain ⟨known, here⟩ := List.mem_filter.mp listed
    refine idle job known same ?_
    rw [← same, of_decide_eq_true here]
    simp

include real local_ spacious canonical distinct reached member fresh in
/-- The run over the next source comes to what is due for it, and ends like the run before it. -/
theorem Reached.run (once : done.Nodup) :
    ∃ cache after, TypedLiterals.run project engine seed options [source] now =
        (.ok ((wholeReport project engine seed options sources workspace).about source), after) ∧
      Left project engine seed options sources workspace (done ++ [source]) cache after := by
  have jobs_eq := reached.jobs_eq canonical distinct member fresh
  obtain ⟨ends, ending, leaves⟩ := reached.leaves
  have apart := fun cache => spacious.uncrowded.apart_left engine cache once fresh
  have fits : ∀ effect ∈ allEffects project engine seed options (ensureDirectories project workspace.disk).2
      (jobs project [source] now.disk),
      effect.Fits (ensureDirectories project workspace.disk).2.node?
        (ensureDirectories project now.disk).2.node? := by
    intro effect inside
    rw [jobs_eq] at inside
    have begun : effect.Fits (ensureDirectories project workspace.disk).2.node?
        (start project sources workspace).workspace.disk.node? := by
      rw [start_disk]
      exact .refl _ _
    have still := leaves.fits begun fun other left => by
      rcases ending with rfl | ⟨cache, rfl⟩
      · exact apart .empty effect inside other (List.mem_append_left _ (by simpa using left))
      · exact apart cache effect inside other left
    dsimp only at still
    exact still
  obtain ⟨after, ran, came⟩ := (interleaves_run (List.cons_ne_nil source []) real reached.prepared).comes
    (by rw [jobs_eq]; exact spacious.uncrowded.mono List.filter_sublist) local_ fits reached.closable
  rw [reached.report_eq canonical distinct member fresh] at ran
  refine ⟨_, after, ran, ?_, reached.remembers_next canonical distinct member fresh⟩
  have all := leaves.trans came
  rw [inOrderOf_concat, allDue_append, List.append_assoc]
  rw [jobs_eq] at all ⊢
  rcases ending with rfl | ⟨cache, rfl⟩
  · rwa [List.append_nil] at all
  · rw [List.append_assoc, List.singleton_append] at all
    refine Effect.Leaves.taken all (endEffect_taken project options cache _) (fun other inside => ?_)
      (endEffect_asks project options cache)
    exact (apart cache other ((allDue_subperm _).subset inside) _ (by simp)).symm

end

/-! ## All sources -/

include real local_ spacious canonical distinct in
/-- Runs over the sources that are still to come report what is reported of them among all. -/
theorem Left.runEach (secluded : Secluded project seed options sources workspace.disk)
    (left : Left project engine seed options sources workspace done cache now) (listed : rest ⊆ sources)
    (once : (done ++ rest).Nodup) :
    ∃ cache after, TypedLiterals.runEach project engine seed options rest now = (rest.map fun source =>
        .ok ((wholeReport project engine seed options sources workspace).about source), after) ∧
      Left project engine seed options sources workspace (done ++ rest) cache after := by
  induction rest generalizing done cache now with
  | nil => exact ⟨cache, now, rfl, by rwa [List.append_nil]⟩
  | cons source rest ih =>
      obtain ⟨member, listed⟩ := List.cons_subset.mp listed
      obtain ⟨before, _, across⟩ := List.nodup_append.mp once
      have fresh : source ∉ done := fun inside => across source inside source List.mem_cons_self rfl
      have reached := left.reached spacious.uncrowded.closable secluded
      obtain ⟨_, middle, ran, leftNext⟩ := reached.run real local_ spacious canonical distinct member fresh before
      obtain ⟨last, after, each, leftLast⟩ := ih leftNext listed (by rwa [List.append_assoc])
      rw [List.append_assoc] at leftLast
      refine ⟨last, after, ?_, leftLast⟩
      rw [TypedLiterals.runEach, ran]
      dsimp only
      rw [each, List.map_cons]

variable (project engine seed options sources workspace) in
/-- What all sources together come to. -/
def wholeEffects : List Effect :=
  allDue project engine seed options (ensureDirectories project workspace.disk).2
      (jobs project sources workspace.disk) ++
    [endEffect project options (noted project engine seed options (ensureDirectories project workspace.disk).2
      (jobs project sources workspace.disk) (start project sources workspace)).cache]

include spacious canonical distinct in
/-- What is left when all sources are done one by one is what all of them come to. -/
theorem Left.whole (left : Left project engine seed options sources workspace order cache after)
    (all : order.Perm sources) :
    Effect.Leaves (wholeEffects project engine seed options sources workspace)
      (start project sources workspace).workspace after := by
  have once : order.Nodup := all.nodup_iff.mpr distinct
  have listed : ∀ job ∈ jobs project sources workspace.disk, job.source ∈ order :=
    fun job inside => all.mem_iff.mpr (source_of_job canonical inside)
  obtain ⟨kept, others⟩ := partition_noted_jobs project engine seed options
    (ensureDirectories project workspace.disk).2 sources workspace
  have same : endEffect project options cache = endEffect project options (noted project engine seed options
      (ensureDirectories project workspace.disk).2 (jobs project sources workspace.disk)
      (start project sources workspace)).cache := by
    refine endEffect_congr fun source => ?_
    by_cases worked : source ∈ (jobs project sources workspace.disk).map (·.source)
    · obtain ⟨job, inside, rfl⟩ := List.mem_map.mp worked
      rw [left.remembers.finished job inside (listed job inside), kept job inside]
    · rw [others source worked]
      exact left.remembers.left source fun job inside here =>
        absurd (List.mem_map.mpr ⟨job, inside, here⟩) worked
  have ordered := inOrderOf_perm_of_subset once listed
  have due := ordered.flatMap_right fun job =>
    job.due project engine seed options (ensureDirectories project workspace.disk).2
  refine left.leaves.perm ?_ (by rw [same]; exact due.append_right _)
  refine Effect.pairwise_apart_of_subperm (spacious.uncrowded.apart engine cache) ?_
  exact (due.subperm.trans (allDue_subperm _)).append (List.Subperm.refl _)

include local_ spacious in
/-- Whatever the schedule, a run comes to what all its sources come to. -/
theorem Interleaves.whole {outcome : Except Project.Error Report × Workspace}
    (interleaves : Interleaves project engine seed options sources workspace outcome) :
    ∃ after, outcome = (.ok (wholeReport project engine seed options sources workspace), after) ∧
      Effect.Leaves (wholeEffects project engine seed options sources workspace)
        (start project sources workspace).workspace after :=
  interleaves.comes spacious.uncrowded local_ (fun _ _ => .refl _ _) spacious.uncrowded.closable

variable (project engine seed options sources workspace) in
/-- What a run may come to: a run over no sources is over at once, and in any other the work is interleaved. -/
def ComesTo (outcome : Except Project.Error Report × Workspace) : Prop :=
  if sources = [] then outcome = (.ok {}, workspace)
  else Interleaves project engine seed options sources workspace outcome

/-! ## A small run -/

theorem pairDisk_ways :
    let base := (ensureDirectories smallProject pairDisk).2
    (∀ source ∈ ["a.ts", "b.ts"],
      ∀ place ∈ way (Disk.pathNames (smallProject.workingDir.joinSlashed source).text),
        base.node? place = pairDisk.node? place) ∧
    (∀ path ∈ pairPaths.drop 3,
      Avoids base path (Disk.pathNames (smallProject.workingDir.joinSlashed "a.ts").text)) ∧
    (∀ path ∈ pairPaths.take 3 ++ pairPaths.drop 6,
      Avoids base path (Disk.pathNames (smallProject.workingDir.joinSlashed "b.ts").text)) ∧
    ∀ dir ∈ [smallProject.declarationDir, smallProject.cacheDir],
      (∀ place ∈ way (Disk.pathNames dir.text), base.node? place = some .directory) ∧
      ∀ path ∈ pairPaths, Avoids base path (Disk.pathNames dir.text) := by
  decide +kernel

theorem secluded_pairDisk : Secluded smallProject "" {} ["a.ts", "b.ts"] pairDisk := by
  obtain ⟨prepared, first, second, directories⟩ := pairDisk_ways
  obtain ⟨_, _, ⟨groups, ends⟩, _⟩ := pairRun_tasks
  have grouped : ∀ job ∈ jobs smallProject ["a.ts", "b.ts"] pairDisk,
      (job.source, (job.groups smallProject "" {}).flatten) ∈
        [("a.ts", pairPaths.take 3), ("b.ts", (pairPaths.drop 3).take 3)] := by
    intro job inside
    rw [← groups]
    exact List.mem_map_of_mem inside
  refine ⟨fun source _ => Disk.clear_of_noLink pairDisk_noLink [] _, prepared,
    fun source listed job inside other path member => ?_, fun source listed path member => ?_,
    fun dir member => (directories dir member).1, fun dir member path inside => ?_⟩
  · rcases List.mem_pair.mp (grouped job inside) with here | here
    · obtain ⟨own, files⟩ := Prod.mk.inj here
      rw [own] at other
      rw [files] at member
      obtain rfl := (List.mem_pair.mp listed).resolve_left other.symm
      exact second path (List.mem_append_left _ member)
    · obtain ⟨own, files⟩ := Prod.mk.inj here
      rw [own] at other
      rw [files] at member
      obtain rfl := (List.mem_pair.mp listed).resolve_right other.symm
      exact first path (List.mem_of_mem_take member)
  · rw [ends] at member
    rcases List.mem_pair.mp listed with rfl | rfl
    · exact first path (List.drop_subset_drop_left _ (by decide) member)
    · exact second path (List.mem_append_right _ member)
  · rw [pairRun_groups] at inside
    exact (directories dir member).2 path inside

end Run

/-- Whether another workspace has the same at every place of its disk, and has asked the same of the engine. -/
structure Workspace.Agrees (workspace other : Workspace) : Prop where
  nodes : other.disk.node? = workspace.disk.node?
  requests : other.requests.Perm workspace.requests

theorem Workspace.Agrees.refl (workspace : Workspace) : workspace.Agrees workspace :=
  ⟨rfl, .refl _⟩

theorem Effect.Leaves.agrees {effects : List Effect} {other : Workspace}
    (leaves : Effect.Leaves effects workspace after) (also : Effect.Leaves effects workspace other) :
    after.Agrees other :=
  ⟨also.nodes.trans leaves.nodes.symm, also.requests.trans leaves.requests.symm⟩

/-- Sources whose files have nothing to do with each other may be given to one run, whose work is interleaved in
any way, or each to a run of its own, in any order: the same is left on the disk, the engine is asked the same,
and the same is reported of each source. -/
theorem interleavings_agree (real : options.dryRun = false) (local_ : Generation.Local engine)
    (canonical : ∀ source ∈ sources, Path.slashed source = source) (distinct : sources.Nodup)
    (spacious : Run.Spacious project seed options sources workspace.disk)
    (secluded : Run.Secluded project seed options sources workspace.disk) :
    ∃ report after, run project engine seed options sources workspace = (.ok report, after) ∧
      (∀ outcome, Run.ComesTo project engine seed options sources workspace outcome →
        ∃ other, outcome = (.ok report, other) ∧ after.Agrees other) ∧
      ∀ order, order.Perm sources → ∃ last,
        runEach project engine seed options order workspace =
          (order.map fun source => .ok (report.about source), last) ∧ after.Agrees last := by
  by_cases present : sources = []
  · subst present
    refine ⟨{}, workspace, rfl, fun outcome came => ⟨workspace, came, .refl _⟩, fun order all => ?_⟩
    rw [all.eq_nil]
    exact ⟨workspace, rfl, .refl _⟩
  obtain ⟨after, ran, leaves⟩ := (Run.interleaves_run present real spacious.prepared).whole local_ spacious
  refine ⟨_, after, ran, fun outcome came => ?_, fun order all => ?_⟩
  · rw [Run.ComesTo, if_neg present] at came
    obtain ⟨other, rfl, also⟩ := came.whole local_ spacious
    exact ⟨other, rfl, leaves.agrees also⟩
  · have once : order.Nodup := all.nodup_iff.mpr distinct
    cases order with
    | nil => exact absurd all.nil_eq.symm present
    | cons first rest =>
        obtain ⟨_, middle, ranFirst, left⟩ := (Run.reached_nil spacious).run real local_ spacious canonical
          distinct (all.subset List.mem_cons_self) List.not_mem_nil .nil
        obtain ⟨_, last, each, leftLast⟩ := left.runEach real local_ spacious canonical distinct secluded
          (fun _ member => all.subset (List.mem_cons_of_mem _ member)) once
        refine ⟨last, ?_, leaves.agrees (leftLast.whole spacious canonical distinct all)⟩
        rw [runEach, ranFirst]
        dsimp only
        rw [each, List.map_cons]

theorem interleavings_agree_pair :
    ∃ report after,
      run Run.smallProject blankEngine "" {} ["a.ts", "b.ts"] ⟨Run.pairDisk, []⟩ = (.ok report, after) ∧
      (∀ outcome, Run.ComesTo Run.smallProject blankEngine "" {} ["a.ts", "b.ts"] ⟨Run.pairDisk, []⟩ outcome →
        ∃ other, outcome = (.ok report, other) ∧ after.Agrees other) ∧
      ∀ order, order.Perm ["a.ts", "b.ts"] → ∃ last,
        runEach Run.smallProject blankEngine "" {} order ⟨Run.pairDisk, []⟩ =
          (order.map fun source => .ok (report.about source), last) ∧ after.Agrees last :=
  interleavings_agree rfl local_blankEngine (by decide) (by decide) Run.spacious_pairDisk Run.secluded_pairDisk

/-! ## A source where a run makes a directory -/

theorem directoryPair_outcome :
    let together := run Run.smallProject blankEngine "" {} ["a.ts", "c"] ⟨Run.smallDisk, []⟩
    let apart := runEach Run.smallProject blankEngine "" {} ["a.ts", "c"] ⟨Run.smallDisk, []⟩
    together.1.toOption.map (·.failures) = some [⟨"c", .io ⟨"/c"⟩ .notFound⟩] ∧
      apart.1.map (·.toOption.map (·.failures)) = [some [], some [⟨"c", .io ⟨"/c"⟩ .isDirectory⟩]] := by
  decide +kernel

theorem directoryPair_paths :
    let paths := (Run.jobs Run.smallProject ["a.ts", "c"] Run.smallDisk).flatMap (fun job =>
      (job.groups Run.smallProject "" {}).flatten) ++ Run.endPaths Run.smallProject {}
    paths.Pairwise (fun path other => placeOf path ≠ placeOf other) ∧
      ∀ path ∈ paths, placeOf path ≠ placeOf (Run.smallProject.workingDir.joinSlashed "c") := by
  decide +kernel

/-- A source in the place of the cache directory, which is not there yet: a run over all sources, which reads them
before it makes its directories, does not find it, and a run over it alone finds a directory after the others. -/
theorem directory_source_depends :
    Generation.Local blankEngine ∧
    (∀ source ∈ ["a.ts", "c"], Path.slashed source = source ∧ ".." ∉ Disk.pathNames source) ∧
    ["a.ts", "c"].Nodup ∧ Entrypoint.entries (Cache.load Run.smallDisk Run.smallProject) = [] ∧
    (let paths := (Run.jobs Run.smallProject ["a.ts", "c"] Run.smallDisk).flatMap (fun job =>
        (job.groups Run.smallProject "" {}).flatten) ++ Run.endPaths Run.smallProject {}
     paths.Pairwise (fun path other => placeOf path ≠ placeOf other) ∧
       ∀ path ∈ paths, placeOf path ≠ placeOf (Run.smallProject.workingDir.joinSlashed "c")) ∧
    ∃ report first second last,
      (run Run.smallProject blankEngine "" {} ["a.ts", "c"] ⟨Run.smallDisk, []⟩).1 = .ok report ∧
      runEach Run.smallProject blankEngine "" {} ["a.ts", "c"] ⟨Run.smallDisk, []⟩ =
        ([.ok first, .ok second], last) ∧
      (report.about "c").failures = [⟨"c", .io ⟨"/c"⟩ .notFound⟩] ∧
      second.failures = [⟨"c", .io ⟨"/c"⟩ .isDirectory⟩] := by
  refine ⟨local_blankEngine, by decide +kernel, by decide +kernel, by decide +kernel, directoryPair_paths, ?_⟩
  obtain ⟨together, apart⟩ := directoryPair_outcome
  obtain ⟨report, _, ran, failures⟩ := exists_of_outcome together
  generalize runEach Run.smallProject blankEngine "" {} ["a.ts", "c"] ⟨Run.smallDisk, []⟩ = outcome at apart
  obtain ⟨reports, last⟩ := outcome
  obtain ⟨one, rest, rfl, first, others⟩ := List.map_eq_cons_iff.mp apart
  obtain ⟨other, rfl, second⟩ := List.map_eq_singleton_iff.mp others
  obtain ⟨first, ranFirst, _⟩ := Option.map_eq_some_iff.mp first
  obtain ⟨second, ranSecond, failed⟩ := Option.map_eq_some_iff.mp second
  refine ⟨report, first, second, last, by rw [ran], ?_, ?_, failed⟩
  · rw [eq_ok_of_toOption ranFirst, eq_ok_of_toOption ranSecond]
  · simp [Report.about, failures]

end TypedLiterals
