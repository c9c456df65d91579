import Mathlib.Data.List.Flatten
import TypedLiterals.Proofs.Generation.Again
import TypedLiterals.Proofs.Generation.Room

/-!
Runs over one source at a time.

When no file of a run has to do with those of other sources, it does not matter whether the sources are given to
one run or each to a run of its own, nor in which order: the same is left on the disk, and the same is reported of
each source.
-/

namespace TypedLiterals

open Disk (Place placeOf above way)

variable {project : Project} {engine : Engine} {seed : String} {options : Run.Options} {base disk : Disk}
  {sources order : List String} {workspace origin after : Workspace} {source : String} {cache : Cache}

/-- What a report says of one source. -/
def Report.about (report : Report) (source : String) : Report where
  processed := report.processed.filter (·.source = source)
  unchanged := report.unchanged.filter (· = source)
  failures := report.failures.filter (·.source = source)
  entrypoint := report.entrypoint

/-- Runs over one source at a time, with what they report in their order. -/
def runEach (project : Project) (engine : Engine) (seed : String) (options : Run.Options) :
    List String → Workspace → List (Except Project.Error Report) × Workspace
  | [], workspace => ([], workspace)
  | source :: rest, workspace =>
    let (report, middle) := run project engine seed options [source] workspace
    let (reports, last) := runEach project engine seed options rest middle
    (report :: reports, last)

namespace Run

/-! ## One source of many -/

theorem canonicalSources_eq {seen : List String} (canonical : ∀ source ∈ sources, Path.slashed source = source)
    (distinct : sources.Nodup) (fresh : ∀ source ∈ sources, source ∉ seen) :
    canonicalSources seen sources = sources := by
  induction sources generalizing seen with
  | nil => rfl
  | cons first rest ih =>
      obtain ⟨once, distinct⟩ := List.nodup_cons.mp distinct
      obtain ⟨spelled, canonical⟩ := List.forall_mem_cons.mp canonical
      obtain ⟨unseen, fresh⟩ := List.forall_mem_cons.mp fresh
      rw [canonicalSources, spelled, if_neg (by simpa using unseen), ih canonical distinct]
      intro source member
      rw [List.mem_cons, not_or]
      exact ⟨fun same => once (same ▸ member), fresh source member⟩

theorem filter_scanFiles (disk : Disk) (project : Project) (sources : List String) (source : String) :
    (scanFiles disk project sources).1.filter (·.1 = source) =
        (scanFiles disk project (sources.filter (· = source))).1 ∧
      (scanFiles disk project sources).2.filter (·.source = source) =
        (scanFiles disk project (sources.filter (· = source))).2 := by
  induction sources with
  | nil => exact ⟨rfl, rfl⟩
  | cons first rest ih =>
      by_cases same : first = source
      · rw [List.filter_cons_of_pos (by simpa using same), scanFiles, scanFiles]
        cases scanFile disk project first <;> simp [same, ih]
      · rw [List.filter_cons_of_neg (by simpa using same), scanFiles]
        cases scanFile disk project first <;> simp [same, ih]

theorem filter_eq_singleton (distinct : sources.Nodup) (member : source ∈ sources) :
    sources.filter (· = source) = [source] := by
  rw [List.filter_eq, List.count_eq_one_of_mem distinct member, List.replicate_one]

section

variable (canonical : ∀ source ∈ sources, Path.slashed source = source) (distinct : sources.Nodup)
  (member : source ∈ sources) (scanned : scanFile disk project source = scanFile base project source)
include canonical distinct member scanned

theorem scanFiles_one :
    (scanFiles disk project (canonicalSources [] [source])).1 =
        (scanFiles base project (canonicalSources [] sources)).1.filter (·.1 = source) ∧
      (scanFiles disk project (canonicalSources [] [source])).2 =
        (scanFiles base project (canonicalSources [] sources)).2.filter (·.source = source) := by
  have one : canonicalSources [] [source] = [source] := by
    rw [canonicalSources, canonical source member]
    rfl
  obtain ⟨found, failed⟩ := filter_scanFiles base project sources source
  rw [canonicalSources_eq canonical distinct (fun _ _ => List.not_mem_nil), one, found, failed,
    filter_eq_singleton distinct member, scanFiles, scanFiles, scanned]
  exact ⟨rfl, rfl⟩

theorem jobs_one (known : (Cache.load disk project).partition source = (Cache.load base project).partition source) :
    jobs project [source] disk = (jobs project sources base).filter (·.source = source) := by
  obtain ⟨found, _⟩ := scanFiles_one canonical distinct member scanned
  unfold jobs filled scans
  rw [found, List.filter_map, List.filter_filter, List.filter_filter]
  simp only [Bool.and_comm, Function.comp_def]
  refine List.map_congr_left fun pair inside => ?_
  have same : pair.1 = source := by
    simpa using (Bool.and_eq_true_iff.mp (List.mem_filter.mp inside).2).1
  rw [same, known]

/-- What a run knows of its sources at the beginning, it knows of each source when it is given alone. -/
theorem start_report_one (requests others : List Request) :
    (start project [source] ⟨disk, requests⟩).report =
      (start project sources ⟨base, others⟩).report.about source := by
  obtain ⟨found, failed⟩ := scanFiles_one canonical distinct member scanned
  simp only [start_report, scans, found, failed, Report.about, List.filter_nil, List.filter_map,
    List.filter_filter, Function.comp_def, Bool.and_comm]

end

/-! ## What is noted -/

namespace Job

variable (project : Project) (engine : Engine) (seed : String) (options : Run.Options) (base : Disk) (job : Job)

/-- The partition of a source when the work on it has come to its end. -/
def kept : Partition :=
  match job.result project engine seed options base with
  | .ok _ => updated project seed job.source job.scanned job.partition
  | .error _ => job.partition

/-- What is reported of a source when the work on it has come to its end. -/
def report : Report :=
  match job.result project engine seed options base with
  | .ok path =>
    { processed := [⟨job.source, (job.plan project seed).records, (job.pending project seed options).length,
        (job.plan project seed).stale, some path⟩] }
  | .error cause => { failures := [⟨job.source, cause⟩] }

end Job

variable {list : List Job} {progress : Progress}

theorem partition_noted (distinct : (list.map (·.source)).Nodup)
    (known : ∀ job ∈ list, job.partition = progress.cache.partition job.source) :
    (∀ job ∈ list, (noted project engine seed options base list progress).cache.partition job.source =
        job.kept project engine seed options base) ∧
      ∀ source, source ∉ list.map (·.source) →
        (noted project engine seed options base list progress).cache.partition source =
          progress.cache.partition source := by
  unfold noted
  induction list generalizing progress with
  | nil => exact ⟨nofun, fun _ _ => rfl⟩
  | cons first rest ih =>
      obtain ⟨fresh, distinct⟩ := List.nodup_cons.mp distinct
      obtain ⟨knownFirst, knownRest⟩ := List.forall_mem_cons.mp known
      generalize ends : Stage.ended (first.result project engine seed options base) = stage
      have others : ∀ source, source ≠ first.source →
          (note project seed options progress (first, stage)).cache.partition source =
            progress.cache.partition source := fun _ other => partition_note_of_ne progress _ other
      rw [List.map_cons, List.foldl_cons, ends]
      obtain ⟨keptRest, same⟩ := ih distinct fun job member => by
          rw [knownRest job member, others]
          exact fun equal => fresh (List.mem_map.mpr ⟨job, member, equal⟩)
      refine ⟨List.forall_mem_cons.mpr ⟨?_, keptRest⟩, fun source absent => ?_⟩
      · rw [same _ fresh, ← ends]
        unfold Job.kept
        cases first.result project engine seed options base with
        | error cause => rw [note, Progress.failed, Cache.partition_insert, if_pos rfl, knownFirst]
        | ok path => rw [note, Progress.done, Cache.partition_insert, if_pos rfl]
      · rw [List.map_cons, List.mem_cons, not_or] at absent
        rw [same _ absent.2, others _ absent.1]

theorem report_noted (list : List Job) (progress : Progress) :
    (noted project engine seed options base list progress).report =
      { progress.report with
        processed := progress.report.processed ++
          list.flatMap fun job => (job.report project engine seed options base).processed
        failures := progress.report.failures ++
          list.flatMap fun job => (job.report project engine seed options base).failures } := by
  unfold noted
  induction list generalizing progress with
  | nil => simp
  | cons first rest ih =>
      rw [List.map_cons, List.foldl_cons, ih, List.flatMap_cons, List.flatMap_cons]
      unfold Job.report
      cases first.result project engine seed options base <;> simp [note, Progress.done, Progress.failed]

variable (project engine seed options base) in
theorem about_report_job (job : Job) (source : String) :
    (job.report project engine seed options base).about source =
      if job.source = source then job.report project engine seed options base else {} := by
  unfold Job.report Report.about
  by_cases same : job.source = source
  · cases job.result project engine seed options base <;> simp [same]
  · cases job.result project engine seed options base <;> simp [same]

variable (project engine seed options base) in
theorem filter_reports (list : List Job) (source : String) :
    (list.flatMap fun job => (job.report project engine seed options base).processed).filter
        (·.source = source) =
      (list.filter (·.source = source)).flatMap (fun job =>
        (job.report project engine seed options base).processed) ∧
    (list.flatMap fun job => (job.report project engine seed options base).failures).filter
        (·.source = source) =
      (list.filter (·.source = source)).flatMap (fun job =>
        (job.report project engine seed options base).failures) := by
  induction list with
  | nil => exact ⟨rfl, rfl⟩
  | cons first rest ih =>
      have alone := about_report_job project engine seed options base first source
      have processed := congrArg Report.processed alone
      have failures := congrArg Report.failures alone
      dsimp only [Report.about] at processed failures
      rw [List.flatMap_cons, List.flatMap_cons, List.filter_append, List.filter_append, ih.1, ih.2, processed,
        failures]
      by_cases same : first.source = source
      · rw [if_pos same, List.filter_cons_of_pos (by simpa using same), List.flatMap_cons, List.flatMap_cons]
        exact ⟨rfl, rfl⟩
      · rw [if_neg same, List.filter_cons_of_neg (by simpa using same)]
        exact ⟨rfl, rfl⟩

theorem about_noted {other : Progress} (list : List Job) (same : other.report = progress.report.about source) :
    (noted project engine seed options base list progress).report.about source =
      (noted project engine seed options base (list.filter (·.source = source)) other).report := by
  obtain ⟨processed, failures⟩ := filter_reports project engine seed options base list source
  rw [report_noted, report_noted, same, Report.about, Report.about]
  simp only [List.filter_append, processed, failures]

end Run

/-! ## Ways that stay as they are -/

/-- Whether writing or taking away a file, and making the directories above it, leaves the way of names as it
is. -/
def Avoids (disk : Disk) (path : Path) (names : List String) : Prop :=
  placeOf path ∉ way names ∧ ∀ place ∈ above path, place ∈ way names → disk.node? place = some .directory

instance (disk : Disk) (path : Path) (names : List String) : Decidable (Avoids disk path names) :=
  inferInstanceAs (Decidable (_ ∧ _))

namespace Effect

variable {effect last : Effect} {effects : List Effect} {paths : List Path} {names : List String}
  {nodes : Place → Option Disk.Node}

theorem On.still (on : effect.On paths) (avoids : ∀ path ∈ paths, Avoids base path names)
    (same : ∀ place ∈ way names, nodes place = base.node? place) :
    ∀ place ∈ way names, effect.apply nodes place = base.node? place := by
  intro place member
  rw [apply_eq]
  split
  · next higher =>
    obtain ⟨path, listed, inside⟩ := on.above place higher.2
    exact ((avoids path listed).2 place inside member).symm
  · split
    · next own =>
      obtain ⟨path, listed, rfl⟩ := on.own place own
      exact absurd member (avoids path listed).1
    · exact same place member

theorem applyAll_still
    (on : ∀ effect ∈ effects, ∃ paths, effect.On paths ∧ ∀ path ∈ paths, Avoids base path names)
    (same : ∀ place ∈ way names, nodes place = base.node? place) :
    ∀ place ∈ way names, applyAll effects nodes place = base.node? place := by
  induction effects generalizing nodes with
  | nil => exact same
  | cons first rest ih =>
      obtain ⟨paths, onFirst, avoids⟩ := on first List.mem_cons_self
      exact ih (fun effect member => on effect (List.mem_cons_of_mem _ member)) (onFirst.still avoids same)

theorem apply_taken (makes : effect.makes = last.makes) (own : effect.own = last.own)
    (higher : effect.above = last.above) (nodes : Place → Option Disk.Node) :
    last.apply (effect.apply nodes) = last.apply nodes := by
  funext place
  simp only [apply_eq, makes, own, higher]
  split
  · rfl
  · split <;> rfl

theorem applyAll_singleton (effect : Effect) (nodes : Place → Option Disk.Node) :
    applyAll [effect] nodes = effect.apply nodes :=
  rfl

theorem applyAll_append (effects others : List Effect) (nodes : Place → Option Disk.Node) :
    applyAll (effects ++ others) nodes = applyAll others (applyAll effects nodes) :=
  List.foldl_append

/-- A task whose places a later one takes over leaves nothing. -/
theorem applyAll_taken (covers : ∀ nodes, last.apply (effect.apply nodes) = last.apply nodes)
    (apart : ∀ other ∈ effects, Apart effect other) (nodes : Place → Option Disk.Node) :
    applyAll (effect :: (effects ++ [last])) nodes = applyAll (effects ++ [last]) nodes := by
  induction effects generalizing nodes with
  | nil => exact covers nodes
  | cons first rest ih =>
      have swapped := apply_comm (apart first List.mem_cons_self).symm nodes
      have later := ih (fun other member => apart other (List.mem_cons_of_mem _ member)) (first.apply nodes)
      simp only [applyAll, List.foldl_cons, List.cons_append] at later ⊢
      rw [swapped]
      exact later

end Effect

namespace Run

theorem endEffect_taken (project : Project) (options : Run.Options) (cache known : Cache)
    (nodes : Place → Option Disk.Node) :
    (endEffect project options known).apply ((endEffect project options cache).apply nodes) =
      (endEffect project options known).apply nodes := by
  refine Effect.apply_taken ?_ ?_ ?_ nodes
  · simp only [endEffect]
  · rw [endEffect_own, endEffect_own]
  · rw [endEffect_above, endEffect_above]

theorem endEffect_result_path (project : Project) (options : Run.Options) (cache : Cache) :
    (endEffect project options cache).result (placeOf (Cache.path project)) =
      some (.file (Cache.document cache).toUTF8) := by
  simp [endEffect]

/-- The end of a run does the same for caches with the same partitions. -/
theorem endEffect_congr {known : Cache}
    (same : ∀ source, Cache.partition cache source = Cache.partition known source) :
    endEffect project options cache = endEffect project options known := by
  have document : Cache.document cache = Cache.document known := by
    unfold Cache.document
    rw [Cache.withoutEmpty_congr same]
  have rendered := Entrypoint.render_congr project same
  unfold endEffect
  rw [document, rendered]

theorem ensureDirectories_of_paved
    (paved : ∀ dir ∈ [project.declarationDir, project.cacheDir], disk.Paved (Disk.pathNames dir.text)) :
    ensureDirectories project disk = (.ok (), disk) := by
  have found : ∀ dir ∈ [project.declarationDir, project.cacheDir], disk.ensureDirectory dir = (.ok (), disk) :=
    fun dir member => Disk.ensureDirectory_of_opens
      ⟨(paved dir member).walks, paved dir member _ (Disk.resolve_mem_way _)⟩
  unfold ensureDirectories
  rw [found _ List.mem_cons_self]
  dsimp only
  rw [found _ (List.mem_cons_of_mem _ List.mem_cons_self)]

section

variable (closable : Closable project options base) {nodes : Place → Option Disk.Node}
  (ended : disk.node? = (endEffect project options cache).apply nodes)
include closable ended

theorem node_of_ended {path : Path} (member : path ∈ endPaths project options) :
    (∀ place ∈ above path, disk.node? place = some .directory) ∧
      disk.node? (placeOf path) = (endEffect project options cache).result (placeOf path) := by
  refine ⟨fun place higher => ?_, ?_⟩
  · rw [ended, Effect.apply_eq, endEffect_above,
      if_pos ⟨rfl, List.mem_flatMap.mpr ⟨path, member, higher⟩⟩]
  · rw [ended, Effect.apply_eq, endEffect_above, endEffect_own, if_neg, if_pos (List.mem_map_of_mem member)]
    rintro ⟨_, higher⟩
    obtain ⟨other, listed, inside⟩ := List.mem_flatMap.mp higher
    exact closable.roomy.apart path member other listed inside

/-- Where a run has ended there is room for the end of another one. -/
theorem Closable.of_ended : Closable project options disk := by
  have node := fun path (member : path ∈ endPaths project options) => node_of_ended closable ended member
  have result : ∀ path ∈ endPaths project options, disk.node? (placeOf path) = none ∨
      ∃ content, disk.node? (placeOf path) = some (.file content) := by
    intro path member
    rw [(node path member).2]
    unfold endEffect
    dsimp only
    split
    · exact .inr ⟨_, rfl⟩
    · split
      · exact .inl rfl
      · exact .inr ⟨_, rfl⟩
  refine ⟨⟨closable.roomy.ends, fun path member place higher => .inr ((node path member).1 place higher),
    fun path member target => ?_, closable.roomy.apart⟩, fun path member => ?_, closable.apart⟩
  · rcases result path member with none | ⟨content, file⟩
    · rw [none]
      exact nofun
    · rw [file]
      exact nofun
  · rcases result path member with none | ⟨content, file⟩
    · rw [none]
      exact nofun
    · rw [file]
      exact nofun

theorem load_of_ended : Cache.load disk project = cache.withoutEmpty := by
  have member : Cache.path project ∈ endPaths project options := by simp [endPaths]
  obtain ⟨higher, own⟩ := node_of_ended closable ended member
  have held := Cache.ofDocument?_document cache
  rw [endEffect_result_path] at own
  generalize Cache.document cache = text at own held
  have ends := closable.roomy.ends _ member
  have ready : disk.Ready (Cache.path project) := ⟨ends, higher, fun target => by simp [own]⟩
  have read := Cache.readText_of_read (ready.read own)
  unfold Cache.load
  rw [read]
  dsimp only
  rw [held, Option.getD_some]

end

/-! ## Sources in an order -/

/-- The work on sources in an order of its own. -/
def inOrderOf (list : List Job) (order : List String) : List Job :=
  order.flatMap fun source => list.filter (·.source = source)

theorem inOrderOf_perm (list : List Job) (distinct : order.Nodup) :
    (inOrderOf list order ++ list.filter (fun job => !order.contains job.source)).Perm list := by
  induction order with
  | nil => simp [inOrderOf]
  | cons source rest ih =>
      obtain ⟨fresh, distinct⟩ := List.nodup_cons.mp distinct
      have first : (list.filter (fun job => !rest.contains job.source)).filter (·.source = source) =
          list.filter (·.source = source) := by
        rw [List.filter_filter]
        refine List.filter_congr fun job _ => ?_
        by_cases same : job.source = source
        · simp [same, fresh]
        · simp [same]
      have others : (list.filter (fun job => !rest.contains job.source)).filter
            (fun job => !decide (job.source = source)) =
          list.filter (fun job => !(source :: rest).contains job.source) := by
        rw [List.filter_filter]
        refine List.filter_congr fun job _ => ?_
        by_cases same : job.source = source <;> simp [same]
      have parts := List.filter_append_perm (fun job : Job => decide (job.source = source))
        (list.filter (fun job => !rest.contains job.source))
      rw [first, others] at parts
      have moved := (parts.append_left (inOrderOf list rest)).trans (ih distinct)
      rw [inOrderOf, List.flatMap_cons, ← inOrderOf, List.append_assoc]
      refine List.Perm.trans ?_ moved
      rw [← List.append_assoc, ← List.append_assoc]
      exact List.perm_append_comm.append_right _

theorem inOrderOf_perm_of_subset {list : List Job} (distinct : order.Nodup)
    (all : ∀ job ∈ list, job.source ∈ order) : (inOrderOf list order).Perm list := by
  have none : list.filter (fun job => !order.contains job.source) = [] :=
    List.filter_eq_nil_iff.mpr fun job member => by simp [all job member]
  have parts := inOrderOf_perm list distinct
  rwa [none, List.append_nil] at parts

theorem exists_of_forall₂ {α β : Type} {related : α → β → Prop} {list : List α} {others : List β} {first : α}
    (all : List.Forall₂ related list others) (member : first ∈ list) : ∃ other ∈ others, related first other := by
  induction all with
  | nil => cases member
  | @cons head other _ _ holds _ ih =>
      rcases List.mem_cons.mp member with rfl | later
      · exact ⟨other, List.mem_cons_self, holds⟩
      · obtain ⟨found, inside, holds⟩ := ih later
        exact ⟨found, List.mem_cons_of_mem _ inside, holds⟩

theorem exists_on_of_due {effect : Effect} {job : Job}
    (member : effect ∈ job.due project engine seed options base) :
    ∃ paths, effect.On paths ∧ ∀ path ∈ paths, path ∈ (job.groups project seed options).flatten := by
  obtain ⟨paths, listed, on⟩ := exists_of_forall₂ (job.on_effects project seed options engine base)
    (Job.due_subperm.subset member)
  exact ⟨paths, on, fun path inside => List.mem_flatten.mpr ⟨paths, listed, inside⟩⟩

/-! ## Runs one after the other -/

/-- Whether the files of each source, and those of the end of a run, have nothing to do with the ways to other
sources and to the directories of the run, and no link is on these ways. -/
structure Secluded (project : Project) (seed : String) (options : Run.Options) (sources : List String)
    (disk : Disk) : Prop where
  direct : ∀ source ∈ sources, disk.Direct (project.workingDir.joinSlashed source)
  prepared : ∀ source ∈ sources, ∀ place ∈ way (Disk.pathNames (project.workingDir.joinSlashed source).text),
    (ensureDirectories project disk).2.node? place = disk.node? place
  others : ∀ source ∈ sources, ∀ job ∈ jobs project sources disk, job.source ≠ source →
    ∀ path ∈ (job.groups project seed options).flatten, Avoids (ensureDirectories project disk).2 path
      (Disk.pathNames (project.workingDir.joinSlashed source).text)
  ending : ∀ source ∈ sources, ∀ path ∈ endPaths project options, Avoids (ensureDirectories project disk).2 path
    (Disk.pathNames (project.workingDir.joinSlashed source).text)
  paved : ∀ dir ∈ [project.declarationDir, project.cacheDir],
    (ensureDirectories project disk).2.Paved (Disk.pathNames dir.text)
  directories : ∀ dir ∈ [project.declarationDir, project.cacheDir],
    ∀ path ∈ (jobs project sources disk).flatMap (fun job => (job.groups project seed options).flatten) ++
      endPaths project options, Avoids (ensureDirectories project disk).2 path (Disk.pathNames dir.text)

section

variable (project engine seed options sources workspace)

/-- Whether a cache holds of the sources that are done what the work on them came to, and of others what was
known of them at the beginning. -/
structure Remembers (done : List String) (cache : Cache) : Prop where
  finished : ∀ job ∈ jobs project sources workspace.disk, job.source ∈ done → cache.partition job.source =
    job.kept project engine seed options (ensureDirectories project workspace.disk).2
  left : ∀ source, (∀ job ∈ jobs project sources workspace.disk, job.source = source → source ∉ done) →
    cache.partition source = (Cache.load workspace.disk project).partition source

/-- What is left when runs over single sources have ended. -/
structure Left (done : List String) (cache : Cache) (now : Workspace) : Prop where
  leaves : Effect.Leaves (allDue project engine seed options (ensureDirectories project workspace.disk).2
      (inOrderOf (jobs project sources workspace.disk) done) ++ [endEffect project options cache])
    (start project sources workspace).workspace now
  remembers : Remembers project engine seed options sources workspace done cache

/-- What the next run over a single source finds. -/
structure Reached (done : List String) (now : Workspace) : Prop where
  prepared : (ensureDirectories project now.disk).1 = .ok ()
  leaves : ∃ ends, (ends = [] ∨ ∃ cache, ends = [endEffect project options cache]) ∧
    Effect.Leaves (allDue project engine seed options (ensureDirectories project workspace.disk).2
        (inOrderOf (jobs project sources workspace.disk) done) ++ ends)
      (start project sources workspace).workspace
      { now with disk := (ensureDirectories project now.disk).2 }
  closable : Closable project options (ensureDirectories project now.disk).2
  remembers : Remembers project engine seed options sources workspace done (Cache.load now.disk project)
  scanned : ∀ source ∈ sources, source ∉ done →
    scanFile now.disk project source = scanFile workspace.disk project source

end

theorem reached_nil (spacious : Spacious project seed options sources workspace.disk) :
    Reached project engine seed options sources workspace [] workspace where
  prepared := spacious.prepared
  leaves := ⟨[], .inl rfl, .refl _⟩
  closable := spacious.uncrowded.closable
  remembers := ⟨nofun, fun _ _ => rfl⟩
  scanned := fun _ _ _ => rfl

/-- What is left of sources that are done was done to their files, or to those of the end of a run. -/
theorem exists_on_of_left {done : List String} {effect : Effect} (member : effect ∈
      allDue project engine seed options base (inOrderOf list done) ++ [endEffect project options cache]) :
    ∃ paths, effect.On paths ∧ ∀ path ∈ paths,
      (∃ job ∈ list, job.source ∈ done ∧ path ∈ (job.groups project seed options).flatten) ∨
        path ∈ endPaths project options := by
  rcases List.mem_append.mp member with due | last
  · obtain ⟨job, ordered, inside⟩ := List.mem_flatMap.mp due
    obtain ⟨source, finished, filtered⟩ := List.mem_flatMap.mp ordered
    obtain ⟨listed, same⟩ := List.mem_filter.mp filtered
    obtain ⟨paths, on, among⟩ := exists_on_of_due inside
    refine ⟨paths, on, fun path member => .inl ⟨job, listed, ?_, among path member⟩⟩
    rwa [of_decide_eq_true same]
  · rw [List.mem_singleton.mp last]
    exact ⟨_, .of_places (endEffect_own project options cache) (endEffect_above project options cache),
      fun path member => .inr member⟩

/-- After runs over single sources the next one finds its directories, the cache, and its source as it was. -/
theorem Left.reached {done : List String} {now : Workspace}
    (left : Left project engine seed options sources workspace done cache now)
    (closable : Closable project options (ensureDirectories project workspace.disk).2)
    (secluded : Secluded project seed options sources workspace.disk) :
    Reached project engine seed options sources workspace done now := by
  have nodes := left.leaves.nodes
  rw [start_disk] at nodes
  have ended : now.disk.node? = (endEffect project options cache).apply
      (Effect.applyAll (allDue project engine seed options (ensureDirectories project workspace.disk).2
        (inOrderOf (jobs project sources workspace.disk) done))
        (ensureDirectories project workspace.disk).2.node?) := by
    rw [nodes, Effect.applyAll_append, Effect.applyAll_singleton]
  have paved : ∀ dir ∈ [project.declarationDir, project.cacheDir],
      now.disk.Paved (Disk.pathNames dir.text) := by
    intro dir member place inside
    rw [nodes, ← secluded.paved dir member place inside]
    refine Effect.applyAll_still (fun effect also => ?_) (fun _ _ => rfl) place inside
    obtain ⟨paths, on, among⟩ := exists_on_of_left also
    refine ⟨paths, on, fun path listed => secluded.directories dir member path ?_⟩
    rcases among path listed with ⟨job, known, _, grouped⟩ | last
    · exact List.mem_append_left _ (List.mem_flatMap.mpr ⟨job, known, grouped⟩)
    · exact List.mem_append_right _ last
  have made := ensureDirectories_of_paved paved
  refine ⟨by rw [made], ⟨_, .inr ⟨cache, rfl⟩, by rw [made]; exact left.leaves⟩, ?_, ?_,
    fun source member fresh => ?_⟩
  · rw [made]
    exact closable.of_ended ended
  · have loaded := load_of_ended closable ended
    refine ⟨fun job member finished => ?_, fun source others => ?_⟩
    · rw [loaded, Cache.partition_withoutEmpty]
      exact left.remembers.finished job member finished
    · rw [loaded, Cache.partition_withoutEmpty]
      exact left.remembers.left source others
  · have same : now.disk.read (project.workingDir.joinSlashed source) =
        workspace.disk.read (project.workingDir.joinSlashed source) := by
      refine (secluded.direct source member).read_congr fun place inside => ?_
      rw [nodes, ← secluded.prepared source member place inside]
      refine Effect.applyAll_still (fun effect also => ?_) (fun _ _ => rfl) place inside
      obtain ⟨paths, on, among⟩ := exists_on_of_left also
      refine ⟨paths, on, fun path listed => ?_⟩
      rcases among path listed with ⟨job, known, finished, grouped⟩ | last
      · exact secluded.others source member job known (fun same => fresh (same ▸ finished)) path grouped
      · exact secluded.ending source member path last
    rw [scanFile, scanFile, Disk.readText, Disk.readText, same]

/-! ## A run over one source among others -/

theorem Uncrowded.mono {fewer : List Job} (uncrowded : Uncrowded project seed options list base)
    (sublist : fewer.Sublist list) : Uncrowded project seed options fewer base where
  roomy := uncrowded.roomy.mono (sublist.flatMap _ |>.append_right _).subset
  vacant := uncrowded.vacant
  removable := fun job member => uncrowded.removable job (sublist.subset member)
  beside := uncrowded.beside.sublist (sublist.flatMap _ |>.append_right _)

theorem Effect.Leaves.taken {front effects : List Effect} {effect last : Effect}
    (leaves : Effect.Leaves (front ++ effect :: (effects ++ [last])) workspace after)
    (covers : ∀ nodes, last.apply (effect.apply nodes) = last.apply nodes)
    (apart : ∀ other ∈ effects, Effect.Apart effect other) (none : effect.asks = []) :
    Effect.Leaves (front ++ (effects ++ [last])) workspace after where
  nodes := by
    rw [leaves.nodes, Effect.applyAll_append, Effect.applyAll_taken covers apart, ← Effect.applyAll_append]
  requests := by
    have requests := leaves.requests
    rwa [List.flatMap_append, List.flatMap_cons, none, List.nil_append, ← List.flatMap_append] at requests

theorem endEffect_asks (project : Project) (options : Run.Options) (cache : Cache) :
    (endEffect project options cache).asks = [] := by
  rw [endEffect]

end Run

end TypedLiterals
