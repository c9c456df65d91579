import TypedLiterals.CommandLine.Forecast
import TypedLiterals.Proofs.Generation.Writing

/-!
Plans that come true.

A run that is only planned leaves everything as it is. A run that carries the plan out reports the same of
every source as long as none fails on the way, and a forecast made from the plan shows the calls of the
engine in their order and the fingerprints that the cache loses. The calls are what the engine is applied to and
nothing else is.
-/

namespace TypedLiterals

open CommandLine (Forecast)

variable {project : Project} {engine other : Engine} {seed : String} {options : Run.Options}
  {sources : List String} {workspace after : Workspace} {progress : Run.Progress} {report : Report}
  {source hash : String} {scanned : SourceScan} {partition : Partition} {records : List Record}
  {record : Record} {list : List (String × SourceScan)}

/-! ## The calls that are made -/

namespace Generation

/-- A call that succeeds is listed, and the engine has granted it. -/
theorem generate_requests (ok : (generate project engine record workspace).1 = .ok ()) :
    (generate project engine record workspace).2.requests = request project record :: workspace.requests ∧
      ∃ disk, (engine (request project record) disk).1 = .ok () := by
  unfold generate at ok ⊢
  cases made : ensureDirectories record workspace.disk with
  | mk result disk =>
      rw [made] at ok
      cases result with
      | error cause => cases ok
      | ok _ =>
          refine ⟨rfl, disk, ?_⟩
          dsimp only at ok
          cases answer : (engine (request project record) disk).1 with
          | error cause =>
              rw [answer] at ok
              cases ok
          | ok _ => rfl

theorem generateAll_requests
    (ok : ∀ answer ∈ (generateAll project engine records workspace).1, answer = .ok ()) :
    (generateAll project engine records workspace).2.requests =
        (records.map (request project)).reverse ++ workspace.requests ∧
      ∀ made ∈ records.map (request project), ∃ disk, (engine made disk).1 = .ok () := by
  induction records generalizing workspace with
  | nil => exact ⟨rfl, nofun⟩
  | cons first rest ih =>
      rw [generateAll_cons] at ok ⊢
      obtain ⟨okFirst, okRest⟩ := List.forall_mem_cons.mp ok
      obtain ⟨listed, granted⟩ := generate_requests okFirst
      obtain ⟨listedRest, grantedRest⟩ := ih okRest
      exact ⟨by rw [listedRest, listed]; simp, List.forall_mem_cons.mpr ⟨granted, grantedRest⟩⟩

theorem subset_generate (project : Project) (engine : Engine) (record : Record) (workspace : Workspace) :
    workspace.requests ⊆ (generate project engine record workspace).2.requests := by
  unfold generate
  split
  · exact List.Subset.refl _
  · exact List.subset_cons_self _ _

theorem subset_generateAll (project : Project) (engine : Engine) (records : List Record) (workspace : Workspace) :
    workspace.requests ⊆ (generateAll project engine records workspace).2.requests := by
  induction records generalizing workspace with
  | nil => exact List.Subset.refl _
  | cons first rest ih => exact List.Subset.trans (subset_generate project engine first workspace) (ih _)

/-- The engine is applied to nothing but the request that is listed. -/
theorem generate_congr (agree : ∀ made ∈ (generate project engine record workspace).2.requests,
    other made = engine made) :
    generate project other record workspace = generate project engine record workspace := by
  unfold generate at agree ⊢
  cases made : ensureDirectories record workspace.disk with
  | mk result disk =>
      cases result with
      | error cause => rfl
      | ok _ =>
          rw [made] at agree
          have same := agree (request project record) List.mem_cons_self
          dsimp only
          rw [same]

theorem generateAll_congr (agree : ∀ made ∈ (generateAll project engine records workspace).2.requests,
    other made = engine made) :
    generateAll project other records workspace = generateAll project engine records workspace := by
  induction records generalizing workspace with
  | nil => rfl
  | cons first rest ih =>
      rw [generateAll_cons] at agree
      have same : generate project other first workspace = generate project engine first workspace :=
        generate_congr fun made listed => agree made (subset_generateAll project engine rest _ listed)
      rw [generateAll_cons, generateAll_cons, same, ih agree]

end Generation

/-- What succeeds in generating has made one call for each record that was missing, in order. -/
theorem generateMissing_requests {count : Nat}
    (ok : (generateMissing project engine records workspace).1 = .ok count) :
    (generateMissing project engine records workspace).2.requests =
        ((Generation.missingFrom [] records).map (Generation.request project)).reverse ++
          workspace.requests ∧
      ∀ made ∈ (Generation.missingFrom [] records).map (Generation.request project),
        ∃ disk, (engine made disk).1 = .ok () := by
  unfold generateMissing at ok ⊢
  refine Generation.generateAll_requests (Generation.firstError_eq_ok ?_)
  cases first : Generation.firstError (Generation.generateAll project engine
      (Generation.missingFrom [] records) workspace).1 with
  | error cause => simp [first, Except.map] at ok
  | ok _ => rfl

theorem Run.generation_congr (agree : ∀ made ∈ (Run.generation project engine options records workspace).2.requests,
    other made = engine made) :
    Run.generation project other options records workspace =
      Run.generation project engine options records workspace := by
  unfold generation at agree ⊢
  cases timing : options.timing with
  | deferred => rfl
  | inline =>
      rw [timing] at agree
      unfold generateMissing at agree ⊢
      dsimp only at agree ⊢
      rw [Generation.generateAll_congr agree]

/-- What a plan can tell of what happens to a source. -/
def ProcessedSource.planned (outcome : ProcessedSource) : ProcessedSource :=
  { outcome with generated := 0, rewritten := none }

namespace Run

/-- The calls for one source that go out when it is processed. -/
def calls (project : Project) (seed source : String) (scanned : SourceScan) (partition : Partition) :
    List Request :=
  (Generation.missingFrom [] (Plan.ofScan project seed source scanned partition).records).map
    (Generation.request project)

theorem process_congr (same : generation project other options
      (Plan.ofScan project seed source scanned partition).records workspace =
        generation project engine options (Plan.ofScan project seed source scanned partition).records workspace) :
    process project other seed options source scanned partition workspace =
      process project engine seed options source scanned partition workspace := by
  cases made : generation project engine options (Plan.ofScan project seed source scanned partition).records
      workspace with
  | mk result after =>
      cases result with
      | error cause => rw [process_of_error made, process_of_error (same.trans made)]
      | ok count => rw [process_of_ok made, process_of_ok (same.trans made)]

theorem requests_step (project : Project) (engine : Engine) (seed : String) (options : Run.Options)
    (progress : Progress) (source : String) (scanned : SourceScan) :
    (step project engine seed options progress source scanned).workspace.requests =
      (stepGeneration project engine seed options progress source scanned).2.requests := by
  rcases step_cases project engine seed options progress source scanned with
    ⟨_, _, made, stepped⟩ | ⟨_, _, _, made, _, stepped⟩ | ⟨_, _, _, made, _, stepped⟩
  all_goals rw [stepped, made]; rfl

theorem subset_step (project : Project) (engine : Engine) (seed : String) (options : Run.Options)
    (progress : Progress) (source : String) (scanned : SourceScan) : progress.workspace.requests ⊆
      (step project engine seed options progress source scanned).workspace.requests := by
  rw [requests_step]
  unfold stepGeneration generation
  split
  · exact Generation.subset_generateAll project engine _ _
  · exact List.Subset.refl _

theorem subset_steps (project : Project) (engine : Engine) (seed : String) (options : Run.Options)
    (progress : Progress) (list : List (String × SourceScan)) : progress.workspace.requests ⊆
      (steps project engine seed options progress list).workspace.requests :=
  steps_preserves (fun later => progress.workspace.requests ⊆ later.workspace.requests)
    (fun pair _ later earlier => List.Subset.trans earlier (subset_step project engine seed options later pair.1 pair.2))
    (List.Subset.refl _)

theorem step_congr (agree : ∀ made ∈ (step project engine seed options progress source scanned).workspace.requests,
    other made = engine made) :
    step project other seed options progress source scanned =
      step project engine seed options progress source scanned := by
  rw [requests_step] at agree
  unfold step
  dsimp only
  rw [process_congr (generation_congr agree)]

theorem steps_congr (agree : ∀ made ∈ (steps project engine seed options progress list).workspace.requests,
    other made = engine made) :
    steps project other seed options progress list = steps project engine seed options progress list := by
  induction list generalizing progress with
  | nil => rfl
  | cons pair rest ih =>
      rw [steps] at agree
      have same : step project other seed options progress pair.1 pair.2 =
          step project engine seed options progress pair.1 pair.2 :=
        step_congr fun made listed => agree made (subset_steps project engine seed options _ rest listed)
      rw [steps, steps, same, ih agree]

/-- A run applies the engine to nothing but the calls that it lists. -/
theorem run_congr (present : sources ≠ []) (real : options.dryRun = false)
    (ran : run project engine seed options sources workspace = (.ok report, after))
    (agree : ∀ made ∈ after.requests, other made = engine made) :
    run project other seed options sources workspace = (.ok report, after) := by
  obtain ⟨made, finished⟩ := run_eq_ok present real ran
  obtain ⟨_, _, _, _, requests⟩ := finish_eq_ok finished
  have same : last project other seed options sources workspace = last project engine seed options sources workspace :=
    steps_congr (requests ▸ agree)
  rw [run_eq_finish present real made, same, finished]

/-- A step that does not fail is as planned: it reports the plan and makes its calls. -/
theorem step_planned (inline : options.timing = .inline)
    (succeeded : (step project engine seed options progress source scanned).report.failures =
      progress.report.failures) :
    (step project engine seed options progress source scanned).report.processed.map (·.planned) =
        progress.report.processed.map (·.planned) ++
          [planOutcome project seed source scanned (progress.cache.partition source)] ∧
      (step project engine seed options progress source scanned).workspace.requests =
        (calls project seed source scanned (progress.cache.partition source)).reverse ++
          progress.workspace.requests ∧
      ∀ made ∈ calls project seed source scanned (progress.cache.partition source),
        ∃ disk, (engine made disk).1 = .ok () := by
  rcases step_cases project engine seed options progress source scanned with
    ⟨_, _, _, stepped⟩ | ⟨_, _, _, _, _, stepped⟩ | ⟨count, later, path, made, _, stepped⟩
  · rw [stepped] at succeeded
    simp [Progress.failed] at succeeded
  · rw [stepped] at succeeded
    simp [Progress.failed] at succeeded
  · rw [stepped]
    refine ⟨by simp [Progress.done, ProcessedSource.planned, planOutcome], ?_⟩
    simp only [stepGeneration, generation, inline] at made
    have requests := generateMissing_requests (congrArg Prod.fst made)
    rwa [made] at requests

/-- Steps over different sources of which none fails are as planned. -/
theorem steps_planned (inline : options.timing = .inline) (distinct : (list.map (·.1)).Nodup)
    (succeeded : (steps project engine seed options progress list).report.failures =
      progress.report.failures) :
    (steps project engine seed options progress list).report.processed.map (·.planned) =
        progress.report.processed.map (·.planned) ++ list.map (fun pair =>
          planOutcome project seed pair.1 pair.2 (progress.cache.partition pair.1)) ∧
      (steps project engine seed options progress list).workspace.requests =
        (list.flatMap fun pair =>
          calls project seed pair.1 pair.2 (progress.cache.partition pair.1)).reverse ++
            progress.workspace.requests ∧
      ∀ pair ∈ list, ∀ made ∈ calls project seed pair.1 pair.2 (progress.cache.partition pair.1),
        ∃ disk, (engine made disk).1 = .ok () := by
  induction list generalizing progress with
  | nil => simp [steps]
  | cons pair rest ih =>
      obtain ⟨first, scanned⟩ := pair
      rw [List.map_cons, List.nodup_cons] at distinct
      rw [steps] at succeeded ⊢
      -- Failures are only added, so neither the first source nor a later one adds one.
      obtain ⟨_, failed, reported, _⟩ := steps_eq project engine seed options distinct.2
        (step project engine seed options progress first scanned)
      have none : (step project engine seed options progress first scanned).report.failures =
          progress.report.failures := by
        rcases step_failed_or_done project engine seed options progress first scanned with
          ⟨_, _, stepped⟩ | ⟨_, _, _, stepped⟩
        · rw [reported, stepped] at succeeded
          simp [Progress.failed] at succeeded
        · rw [stepped]
          rfl
      obtain ⟨planned, requests, granted⟩ := step_planned inline none
      obtain ⟨plannedRest, requestsRest, grantedRest⟩ := ih distinct.2 (succeeded.trans none.symm)
      have kept : ∀ pair ∈ rest,
          Cache.partition (step project engine seed options progress first scanned).cache pair.1 =
            progress.cache.partition pair.1 := by
        intro pair member
        apply step_partition
        intro same
        exact distinct.1 (List.mem_map.mpr ⟨pair, member, same⟩)
      refine ⟨?_, ?_, List.forall_mem_cons.mpr ⟨granted, fun pair member => ?_⟩⟩
      · rw [plannedRest, planned, List.append_assoc, List.singleton_append, List.map_cons]
        congr 2
        exact List.map_congr_left fun pair member => by rw [kept pair member]
      · rw [requestsRest, requests, List.flatMap_cons, List.reverse_append, List.append_assoc]
        congr 2
        exact List.flatMap_congr fun pair member => by rw [kept pair member]
      · rw [← kept pair member]
        exact grantedRest pair member

/-- What a run that is only planned comes to. -/
theorem run_planned (project : Project) (engine : Engine) (seed : String) (sources : List String)
    (workspace : Workspace) (dry : options.dryRun = true) :
    run project engine seed options sources workspace =
      (.ok
        { unchanged :=
            ((scans workspace.disk project sources).filter (·.2.occurrences.isEmpty)).map (·.1)
          failures := (scanFiles workspace.disk project (canonicalSources [] sources)).2
          processed := (filled workspace.disk project sources).map fun pair =>
            planOutcome project seed pair.1 pair.2
              (Cache.partition (Cache.load workspace.disk project) pair.1) }, workspace) := by
  by_cases present : sources = []
  · subst present
    rfl
  · unfold run
    rw [if_neg (by simpa using present)]
    dsimp only
    rw [if_pos dry]
    rfl

end Run

/-! ## Forecasts -/

/-- Whether a forecast literal stands for a call of the engine. -/
def CommandLine.Forecast.Foretells (project : Project) (source : String) (view : Forecast.Literal)
    (request : Request) : Prop :=
  request.source = source ∧ request.module = (project.location source view.hash).module ∧
    request.declaration = project.workingDir.joinSlashed view.declaration

theorem views_eq_map (only : ∀ record ∈ records, record.source = source) (seen : List String) :
    Forecast.views seen (records.filter (!·.skip)) =
      (Generation.missingFrom (seen.map fun hash => (source, hash)) records).map fun record =>
        ⟨record.hash, record.location.declarationRel⟩ := by
  induction records generalizing seen with
  | nil => rfl
  | cons first rest ih =>
      obtain ⟨same, others⟩ := List.forall_mem_cons.mp only
      have known : (seen.map fun hash => (source, hash)).contains (first.source, first.hash) =
          seen.contains first.hash := by
        simp [same]
      rw [Generation.missingFrom, known]
      cases skipped : first.skip with
      | true => simpa [skipped] using ih others seen
      | false =>
          rw [List.filter_cons_of_pos (by simp [skipped]), Forecast.views]
          cases seen.contains first.hash with
          | true => simpa using ih others seen
          | false => simpa [same] using ih others (first.hash :: seen)

theorem foretells_calls (project : Project) (seed source : String) (scanned : SourceScan)
    (partition : Partition) :
    List.Forall₂ (Forecast.Foretells project source)
      (Forecast.ofProcessed (Run.planOutcome project seed source scanned partition)).generate
      (Run.calls project seed source scanned partition) := by
  have planned : ∀ record ∈ (Plan.ofScan project seed source scanned partition).records,
      record.source = source ∧ record.location = project.location source record.hash := by
    intro record member
    obtain ⟨occurrence, _, rfl⟩ := List.mem_map.mp member
    exact ⟨rfl, rfl⟩
  have views : (Forecast.ofProcessed (Run.planOutcome project seed source scanned partition)).generate =
      (Generation.missingFrom [] (Plan.ofScan project seed source scanned partition).records).map
        fun record => ⟨record.hash, record.location.declarationRel⟩ :=
    views_eq_map (fun record member => (planned record member).1) []
  rw [views, Run.calls, List.forall₂_map_left_iff, List.forall₂_map_right_iff, List.forall₂_same]
  intro record member
  obtain ⟨named, located⟩ := planned record (Generation.mem_of_mem_missingFrom member).1
  refine ⟨named, ?_, ?_⟩
  · rw [Generation.request, located]
  · rw [Generation.request, located, Project.declaration_location]

theorem mem_stale_iff_lost :
    hash ∈ (Plan.ofScan project seed source scanned partition).stale ↔
      partition.contains hash = true ∧
        (Run.updated project seed source scanned partition).contains hash = false := by
  rw [Run.mem_stale, ← Bool.not_eq_true, Table.contains_eq_true, Table.contains_eq_true]
  simp only [Run.find?_updated, Partition.entryAfter]
  cases old : partition.find? hash with
  | none => simp
  | some known => by_cases used : hash ∈ scanned.hashesInUse seed <;> simp [used]

/-- Whether a plan tells the truth about a run: what it reports of the sources, the calls that are made, in
order, and the fingerprints that go from the partition of each source. -/
structure Plan.Foretells (project : Project) (plan report : Report) (requests : List Request)
    (before after : Cache) : Prop where
  unchanged : plan.unchanged = report.unchanged
  failures : plan.failures = report.failures
  processed : plan.processed = report.processed.map (·.planned)
  calls : ∃ calls, requests = calls.flatten ∧ List.Forall₂ (fun outcome made =>
    List.Forall₂ (Forecast.Foretells project outcome.source) (Forecast.ofProcessed outcome).generate made)
      plan.processed calls
  prune : ∀ outcome ∈ plan.processed, ∀ hash, hash ∈ (Forecast.ofProcessed outcome).prune ↔
    (before.partition outcome.source).contains hash = true ∧
      (after.partition outcome.source).contains hash = false

/-- A run that is only planned changes nothing, and its plan tells the truth about every run over the same
sources that generates itself and in which no source fails once it is scanned. What the run lists as calls is what
the engine has granted, and all that it is applied to. -/
theorem plan_foretells_run (project : Project) (engine : Engine) (seed : String) (options : Run.Options)
    (sources : List String) (workspace : Workspace) (dry : options.dryRun = true) :
    ∃ plan, run project engine seed options sources workspace = (.ok plan, workspace) ∧
      ∀ (other : Engine) (real : Run.Options) (report : Report) (after : Workspace),
        real.timing = .inline → real.dryRun = false →
        run project other seed real sources workspace = (.ok report, after) →
        (∀ failure ∈ report.failures, ∃ cause,
          Run.scanFile workspace.disk project failure.source = .error cause) →
        ∃ requests, after.requests = requests.reverse ++ workspace.requests ∧
          (∀ request ∈ requests, ∃ disk, (other request disk).1 = .ok ()) ∧
          (∀ another : Engine, (∀ request ∈ after.requests, another request = other request) →
            run project another seed real sources workspace = (.ok report, after)) ∧
          (sources ≠ [] → ∃ disk, Cache.save disk project
            (Run.last project other seed real sources workspace).cache = (.ok (), after.disk)) ∧
          Plan.Foretells project plan report requests (Cache.load workspace.disk project)
            (Run.last project other seed real sources workspace).cache := by
  refine ⟨_, Run.run_planned project engine seed sources workspace dry, ?_⟩
  intro other real report after inline done ran scannedOnly
  by_cases present : sources = []
  · subst present
    cases ran
    exact ⟨[], rfl, nofun, fun _ _ => rfl, fun empty => absurd rfl empty, rfl, rfl, rfl, ⟨[], rfl, .nil⟩, nofun⟩
  obtain ⟨unchanged, failed, failures, listed, changed, _⟩ := Run.report_of_run present done ran
  obtain ⟨_, finished⟩ := Run.run_eq_ok present done ran
  obtain ⟨_, _, saved, reported, requests⟩ := Run.finish_eq_ok finished
  -- No source fails once it is scanned, so all scanned sources are processed, in the order of the plan.
  have none : failed = [] := by
    rw [List.eq_nil_iff_forall_not_mem]
    intro failure member
    obtain ⟨cause, unscanned⟩ := scannedOnly failure (failures ▸ List.mem_append_right _ member)
    obtain ⟨pair, inside, same⟩ := List.mem_map.mp
      (listed.subset (List.mem_append_right _ (List.mem_map_of_mem member)))
    rw [← same, Run.scanFile_of_mem_filled inside] at unscanned
    cases unscanned
  rw [none, List.append_nil] at failures
  rw [none, List.map_nil, List.append_nil] at listed
  have succeeded : (Run.last project other seed real sources workspace).report.failures =
      (Run.start project sources workspace).report.failures := by
    rw [Run.start_report, ← failures, reported]
  obtain ⟨planned, made, granted⟩ :=
    Run.steps_planned inline (Run.nodup_filled workspace.disk project sources) succeeded
  rw [Run.start_report, Run.start_cache, List.map_nil, List.nil_append] at planned
  rw [← Run.last, Run.start_cache, Run.start_requests] at made
  refine ⟨_, requests.trans made, fun request listed => ?_, fun _ => Run.run_congr present done ran,
    fun _ => ⟨_, saved⟩, unchanged.symm, failures.symm, ?_, ?_, ?_⟩
  · obtain ⟨pair, inside, called⟩ := List.mem_flatMap.mp listed
    exact granted pair inside request called
  · rw [reported, ← planned]
    rfl
  · refine ⟨_, List.flatMap_def, ?_⟩
    rw [List.forall₂_map_left_iff, List.forall₂_map_right_iff, List.forall₂_same]
    exact fun pair _ => foretells_calls project seed pair.1 pair.2 _
  · intro outcome member hash
    obtain ⟨pair, inside, rfl⟩ := List.mem_map.mp member
    rw [Run.planOutcome, changed pair inside (listed.mem_iff.mpr (List.mem_map_of_mem inside))]
    exact mem_stale_iff_lost

open Run in
theorem plan_foretells_run_small :
    ∃ plan report after requests,
      run smallProject blankEngine "" { smallOptions with dryRun := true } ["a.ts"] ⟨smallDisk, []⟩ =
        (.ok plan, ⟨smallDisk, []⟩) ∧
      run smallProject blankEngine "" smallOptions ["a.ts"] ⟨smallDisk, []⟩ = (.ok report, after) ∧
      plan.processed.map (·.source) = ["a.ts"] ∧ after.requests = requests.reverse ++ [] ∧
      Plan.Foretells smallProject plan report requests (Cache.load smallDisk smallProject)
        (last smallProject blankEngine "" smallOptions ["a.ts"] ⟨smallDisk, []⟩).cache := by
  obtain ⟨plan, planned, foretells⟩ := plan_foretells_run smallProject blankEngine ""
    { smallOptions with dryRun := true } ["a.ts"] ⟨smallDisk, []⟩ rfl
  obtain ⟨report, after, ran, facts⟩ := exists_of_outcome smallRun_report
  obtain ⟨processed, failures⟩ := Prod.mk.inj facts
  obtain ⟨requests, made, _, _, _, truthful⟩ := foretells blankEngine smallOptions report after rfl rfl ran
    (by rw [List.map_eq_nil_iff.mp failures]; nofun)
  refine ⟨plan, report, after, requests, planned, ran, ?_, made, truthful⟩
  rw [truthful.processed, List.map_map]
  exact processed

end TypedLiterals
