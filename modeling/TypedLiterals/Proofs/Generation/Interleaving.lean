import Mathlib.Data.List.Perm.Subperm
import TypedLiterals.Proofs.Generation.Schedule

/-!
What schedules come to.

A schedule only ever does tasks, so as long as all tasks of a run have places of their own, the sources come to
the ends that they would have come to alone, and what is left on the disk is what all their tasks do. The run
that takes one source after the other follows a schedule as well.
-/

namespace TypedLiterals.Run

open Disk (Place Node placeOf above)

variable {project : Project} {engine : Engine} {seed : String} {options : Run.Options} {base : Disk}
  {sources : List String} {workspace middle after origin : Workspace} {progress : Progress}
  {states others ended : List (Job × Stage)} {job : Job} {stage : Stage} {effects fewer : List Effect}
  {outcome : Except Project.Error Report × Workspace} {destination : Destination}

/-! ## All schedules -/

theorem Effect.pairwise_apart_of_subperm (apart : effects.Pairwise Effect.Apart) (part : fewer.Subperm effects) :
    fewer.Pairwise Effect.Apart := by
  obtain ⟨list, same, sublist⟩ := part
  exact (same.pairwise_iff fun apart => Effect.Apart.symm apart).mp (apart.sublist sublist)

variable (project engine seed options base) in
/-- What the tasks of all sources would do. -/
def allEffects (jobs : List Job) : List Effect :=
  jobs.flatMap (·.effects project engine seed options base)

variable (project engine seed options base) in
/-- What the tasks have done that the sources have behind them. -/
def allDone (states : List (Job × Stage)) : List Effect :=
  states.flatMap fun state => state.1.done project engine seed options base state.2

theorem allDone_subperm
    (sound : ∀ state ∈ states, state.1.Sound project engine seed options base state.2) :
    (allDone project engine seed options base states).Subperm
      (allEffects project engine seed options base (states.map (·.1))) := by
  induction states with
  | nil => exact List.Subperm.refl _
  | cons first rest ih =>
      rw [allDone, allEffects, List.map_cons, List.flatMap_cons, List.flatMap_cons]
      exact (sound first List.mem_cons_self).subperm.append
        (ih fun state member => sound state (List.mem_cons_of_mem _ member))

/-- What a schedule does, move by move: the stages stay sound, and the tasks have their effects. -/
theorem Schedule.sound (schedule : Schedule project engine seed options.destination states workspace ended after)
    (apart : (allEffects project engine seed options base (states.map (·.1))).Pairwise Effect.Apart)
    (doable : ∀ state ∈ states, state.1.Doable project engine seed options base)
    (fits : ∀ effect ∈ allEffects project engine seed options base (states.map (·.1)),
      effect.Fits base.node? origin.disk.node?)
    (sound : ∀ state ∈ states, state.1.Sound project engine seed options base state.2)
    (leaves : Effect.Leaves (allDone project engine seed options base states) origin workspace) :
    ended.map (·.1) = states.map (·.1) ∧
      (∀ state ∈ ended, state.1.Sound project engine seed options base state.2) ∧
      Effect.Leaves (allDone project engine seed options base ended) origin after := by
  induction schedule with
  | stop => exact ⟨rfl, sound, leaves⟩
  | @move front back ended job stage next workspace middle after moves _ ih =>
      have listed : (job, stage) ∈ front ++ (job, stage) :: back := by simp
      have parts : ∀ state ∈ front ++ back, state.1.Sound project engine seed options base state.2 :=
        fun state member => sound state (by
          rcases List.mem_append.mp member with inside | inside <;> simp [inside])
      have before := allDone_subperm fun state member => parts state (List.mem_append_left _ member)
      have behind := allDone_subperm fun state member => parts state (List.mem_append_right _ member)
      obtain ⟨soundNext, added, leavesNext, same⟩ := moves.sound (doable _ listed) (sound _ listed)
        fun effect part => by
          -- The task is none of those that are done, for both are tasks of the run.
          have all : (allDone project engine seed options base (front ++ (job, stage) :: back) ++
              [effect]).Subperm (allEffects project engine seed options base
                ((front ++ (job, stage) :: back).map (·.1))) := by
            have grouped := before.append (part.append behind)
            simp only [allDone, allEffects, List.map_append, List.map_cons, List.flatMap_append,
              List.flatMap_cons, List.append_assoc] at grouped ⊢
            refine List.Perm.subperm ?_ |>.trans grouped
            exact (List.perm_append_comm.append_left _).append_left _
          have different := Effect.pairwise_apart_of_subperm apart all
          refine leaves.fits (fits effect (all.subset (by simp))) fun other done => ?_
          exact ((List.pairwise_append.mp different).2.2 other done effect List.mem_cons_self).symm
      have soundNow : ∀ state ∈ front ++ (job, next) :: back,
          state.1.Sound project engine seed options base state.2 := by
        intro state member
        rcases List.mem_append.mp member with inside | inside
        · exact parts state (List.mem_append_left _ inside)
        · rcases List.mem_cons.mp inside with rfl | inside
          · exact soundNext
          · exact parts state (List.mem_append_right _ inside)
      have jobs : (front ++ (job, next) :: back).map (·.1) = (front ++ (job, stage) :: back).map (·.1) := by
        simp
      rw [← jobs] at apart fits ⊢
      refine ih apart (fun state member => ?_) fits soundNow ?_
      · rcases List.mem_append.mp member with inside | inside
        · exact doable state (by simp [inside])
        · rcases List.mem_cons.mp inside with rfl | inside
          · exact doable (job, stage) listed
          · exact doable state (by simp [inside])
      · have reached : (allDone project engine seed options base (front ++ (job, stage) :: back) ++ added).Perm
            (allDone project engine seed options base (front ++ (job, next) :: back)) := by
          simp only [allDone, List.flatMap_append, List.flatMap_cons, List.append_assoc]
          refine List.Perm.append_left _ ((List.perm_append_comm.append_left _).trans ?_)
          rw [← List.append_assoc]
          exact same.symm.append_right _
        exact (leaves.trans leavesNext).perm
          (Effect.pairwise_apart_of_subperm apart (reached.subperm.trans (allDone_subperm soundNow))) reached

variable (project engine seed options base) in
/-- What the tasks do that the sources come to. -/
def allDue (jobs : List Job) : List Effect :=
  jobs.flatMap (·.due project engine seed options base)

theorem allDue_subperm (jobs : List Job) :
    (allDue project engine seed options base jobs).Subperm (allEffects project engine seed options base jobs) := by
  induction jobs with
  | nil => exact List.Subperm.refl _
  | cons first rest ih =>
      rw [allDue, allEffects, List.flatMap_cons, List.flatMap_cons]
      exact Job.due_subperm.append ih

theorem sound_first (job : Job) :
    job.Sound project engine seed options base (job.first project seed options).2 := by
  refine ⟨by simp [List.map_map, Function.comp_def], fun slot member answer known => ?_⟩
  obtain ⟨record, _, rfl⟩ := List.mem_map.mp member
  cases known

theorem done_first (job : Job) :
    job.done project engine seed options base (job.first project seed options).2 = [] := by
  simp [Job.first, Job.done, List.filter_map, Function.comp_def]

/-- When all sources are done, each has come to the end that it would have come to alone, and what is left
is what the tasks do that the sources come to. -/
theorem Schedule.comes {jobs : List Job}
    (schedule : Schedule project engine seed options.destination (jobs.map (Job.first project seed options))
      workspace ended after)
    (settled : ∀ state ∈ ended, ∃ result, state.2 = .ended result)
    (apart : (allEffects project engine seed options base jobs).Pairwise Effect.Apart)
    (doable : ∀ job ∈ jobs, job.Doable project engine seed options base)
    (fits : ∀ effect ∈ allEffects project engine seed options base jobs,
      effect.Fits base.node? workspace.disk.node?) :
    ended = jobs.map (fun job => (job, .ended (job.result project engine seed options base))) ∧
      Effect.Leaves (allDue project engine seed options base jobs) workspace after := by
  have named : (jobs.map (Job.first project seed options)).map (·.1) = jobs := by
    rw [List.map_map]
    exact List.map_id jobs
  have begun : Effect.Leaves
      (allDone project engine seed options base (jobs.map (Job.first project seed options)))
      workspace workspace := by
    have none : allDone project engine seed options base (jobs.map (Job.first project seed options)) = [] := by
      simp only [allDone, List.flatMap_map, List.flatMap_eq_nil_iff]
      exact fun job _ => done_first job
    exact none ▸ .refl _
  obtain ⟨same, sound, leaves⟩ := schedule.sound (named.symm ▸ apart) (List.forall_mem_map.mpr doable)
    (named.symm ▸ fits) (List.forall_mem_map.mpr fun job _ => sound_first job) begun
  rw [named] at same
  have ends : ended = jobs.map (fun job => (job, .ended (job.result project engine seed options base))) := by
    rw [← same, List.map_map]
    refine ((List.map_congr_left fun state member => ?_).trans (List.map_id _)).symm
    obtain ⟨result, last⟩ := settled state member
    obtain ⟨job, stage⟩ := state
    dsimp only at last
    subst last
    have reached : result = job.result project engine seed options base := sound _ member
    simp [← reached]
  refine ⟨ends, ?_⟩
  rw [ends] at leaves
  rw [allDone, List.flatMap_map] at leaves
  exact leaves

/-! ## One source after the other -/

theorem Schedule.trans (first : Schedule project engine seed destination states workspace others middle)
    (second : Schedule project engine seed destination others middle ended after) :
    Schedule project engine seed destination states workspace ended after := by
  induction first with
  | stop => exact second
  | move moves _ ih => exact .move moves (ih second)

namespace Job

/-- What the work on a source comes to when its tasks are done in their order. -/
def inOrder (project : Project) (engine : Engine) (seed : String) (options : Run.Options) (job : Job)
    (workspace : Workspace) : Except Project.Error Path × Workspace :=
  let (generated, after) := generation project engine options (job.plan project seed).records workspace
  match generated with
  | .error cause => (.error cause, after)
  | .ok _ =>
    let (path, disk) := rewriting project seed options job.source job.scanned job.partition after.disk
    (path, { after with disk })

theorem schedule_generateAll (job : Job) (front back : List (Job × Stage))
    (slots : List (Record × Option (Except Project.Error Unit))) (records : List Record) (workspace : Workspace) :
    Schedule project engine seed destination
      (front ++ (job, .generating (slots ++ records.map fun record => (record, none))) :: back) workspace
      (front ++ (job, .generating (slots ++ records.zip
        ((Generation.generateAll project engine records workspace).1.map some))) :: back)
      (Generation.generateAll project engine records workspace).2 := by
  induction records generalizing slots workspace with
  | nil => exact .stop
  | cons first rest ih =>
      rw [Generation.generateAll_cons, List.map_cons, List.map_cons, List.zip_cons_cons]
      refine .move .generate ?_
      have later := ih (slots ++ [(first, some (Generation.generate project engine first workspace).1)])
        (Generation.generate project engine first workspace).2
      simpa only [List.append_assoc, List.singleton_append] using later

theorem schedule_freeAll (job : Job) (front back : List (Job × Stage)) (freed left : List Path)
    (workspace : Workspace) :
    Schedule project engine seed destination (front ++ (job, .freeing freed left) :: back) workspace
      (front ++ (job, .freeing (freed ++ left) []) :: back)
      { workspace with disk := left.foldl removeArtifact workspace.disk } := by
  induction left generalizing freed workspace with
  | nil =>
      rw [List.append_nil]
      exact .stop
  | cons path rest ih =>
      have frees : job.Moves project engine seed destination (.freeing freed ([] ++ path :: rest)) workspace
          (.freeing (freed ++ [path]) ([] ++ rest)) (free path workspace).2 := .free
      refine .move frees ?_
      have later := ih (freed ++ [path]) (free path workspace).2
      rwa [List.append_assoc, List.singleton_append] at later

theorem generation_eq (project : Project) (engine : Engine) (seed : String) (options : Run.Options) (job : Job)
    (workspace : Workspace) :
    generation project engine options (job.plan project seed).records workspace =
      ((Generation.firstError (Generation.generateAll project engine (job.pending project seed options)
          workspace).1).map fun _ => (job.pending project seed options).length,
        (Generation.generateAll project engine (job.pending project seed options) workspace).2) := by
  unfold generation pending
  cases options.timing <;> rfl

section

variable {records : List Record} {answers : List (Except Project.Error Unit)}

theorem Moves.of_firstError_ok (project : Project) (engine : Engine) (seed : String) (destination : Destination)
    (job : Job) (records : List Record) (workspace : Workspace) (ok : Generation.firstError answers = .ok ()) :
    job.Moves project engine seed destination (.generating (records.zip (answers.map some))) workspace
      (.freeing [] (job.stale project seed)) workspace := by
  refine .generated fun slot member => ?_
  obtain ⟨answer, listed, known⟩ := List.mem_map.mp (List.of_mem_zip member).2
  rw [← known, Generation.firstError_eq_ok ok answer listed]

/-- The first failure ends the work once all answers are there. -/
theorem Moves.of_firstError_error {cause : Project.Error} (project : Project) (engine : Engine) (seed : String)
    (destination : Destination) (job : Job) (workspace : Workspace) (same : answers.length = records.length)
    (failed : Generation.firstError answers = .error cause) :
    job.Moves project engine seed destination (.generating (records.zip (answers.map some))) workspace
      (.ended (.error cause)) workspace := by
  obtain ⟨front, back, rfl, ok⟩ := Generation.exists_of_firstError failed
  obtain ⟨before, rest, rfl, count⟩ : ∃ before rest, records = before ++ rest ∧ before.length = front.length :=
    ⟨records.take front.length, records.drop front.length, (List.take_append_drop _ _).symm, by
      simp at same ⊢
      omega⟩
  obtain ⟨record, behind, rfl⟩ : ∃ record behind, rest = record :: behind := by
    cases rest with
    | nil => simp at same; omega
    | cons record behind => exact ⟨record, behind, rfl⟩
  rw [List.map_append, List.map_cons, List.zip_append (by simpa using count), List.zip_cons_cons]
  refine .failed (fun slot member => ?_) fun slot member => ?_
  · obtain ⟨answer, listed, known⟩ := List.mem_map.mp (List.of_mem_zip member).2
    rw [← known, ok answer listed]
  · obtain ⟨answer, _, known⟩ := List.mem_map.mp (List.of_mem_zip member).2
    rw [← known]
    rfl

end

/-- The tasks of a source can be done in their order. -/
theorem schedule_inOrder (project : Project) (engine : Engine) (seed : String) (options : Run.Options) (job : Job)
    (front back : List (Job × Stage)) (workspace : Workspace) :
    Schedule project engine seed options.destination (front ++ job.first project seed options :: back) workspace
      (front ++ (job, .ended (job.inOrder project engine seed options workspace).1) :: back)
      (job.inOrder project engine seed options workspace).2 := by
  have counted := Generation.length_generateAll project engine (job.pending project seed options) workspace
  have generated := generation_eq project engine seed options job workspace
  refine (schedule_generateAll job front back [] (job.pending project seed options) workspace).trans ?_
  unfold inOrder
  rw [generated, List.nil_append]
  generalize Generation.generateAll project engine (job.pending project seed options) workspace = outcome at *
  obtain ⟨answers, after⟩ := outcome
  dsimp only at counted ⊢
  cases failed : Generation.firstError answers with
  | error cause => exact .move (Moves.of_firstError_error project engine seed _ job _ counted failed) .stop
  | ok _ =>
      refine .move (Moves.of_firstError_ok project engine seed _ job _ _ failed) ?_
      refine (schedule_freeAll job front back [] (job.stale project seed) after).trans ?_
      exact .move .rewrite .stop

/-- A source is taken through its steps by the tasks in their order. -/
theorem process_eq (project : Project) (engine : Engine) (seed : String) (options : Run.Options) (job : Job)
    (workspace : Workspace) :
    process project engine seed options job.source job.scanned job.partition workspace =
      ((job.inOrder project engine seed options workspace).1.map fun path =>
        (⟨job.source, (job.plan project seed).records, (job.pending project seed options).length,
          (job.plan project seed).stale, some path⟩,
          updated project seed job.source job.scanned job.partition),
        (job.inOrder project engine seed options workspace).2) := by
  have generated := generation_eq project engine seed options job workspace
  unfold inOrder
  cases failed : Generation.firstError (Generation.generateAll project engine
      (job.pending project seed options) workspace).1 with
  | error cause =>
      rw [failed] at generated
      rw [generated]
      exact process_of_error generated
  | ok _ =>
      rw [failed] at generated
      rw [generated]
      exact process_of_ok generated

end Job

/-- A step does the tasks of its source in their order and notes what came of them. -/
theorem step_eq_note (project : Project) (engine : Engine) (seed : String) (options : Run.Options)
    (progress : Progress) (job : Job) (same : job.partition = progress.cache.partition job.source) :
    step project engine seed options progress job.source job.scanned =
      { note project seed options progress
          (job, .ended (job.inOrder project engine seed options progress.workspace).1) with
        workspace := (job.inOrder project engine seed options progress.workspace).2 } := by
  unfold step
  dsimp only
  rw [← same, Job.process_eq]
  cases (job.inOrder project engine seed options progress.workspace).1 with
  | error cause => simp [Except.map, note, Progress.failed, same]
  | ok path => simp [Except.map, note, Progress.done]

theorem note_workspace (progress : Progress) (workspace : Workspace) (state : Job × Stage) :
    note project seed options { progress with workspace } state =
      { note project seed options progress state with workspace } := by
  obtain ⟨job, _ | _ | _ | _⟩ := state <;> rfl

theorem foldl_note_workspace (progress : Progress) (workspace : Workspace) (states : List (Job × Stage)) :
    states.foldl (note project seed options) { progress with workspace } =
      { states.foldl (note project seed options) progress with workspace } := by
  induction states generalizing progress with
  | nil => rfl
  | cons first rest ih => rw [List.foldl_cons, List.foldl_cons, note_workspace, ih]

theorem partition_note_of_ne (progress : Progress) (state : Job × Stage) {source : String}
    (other : source ≠ state.1.source) :
    (note project seed options progress state).cache.partition source = progress.cache.partition source := by
  obtain ⟨job, _ | _ | _ | _⟩ := state
  · rfl
  · rfl
  · rw [note, Progress.failed, Cache.partition_insert, if_neg other]
  · rw [note, Progress.done, Cache.partition_insert, if_neg other]

/-- The steps of a run are a schedule, and come to what is noted of it. -/
theorem schedule_steps (project : Project) (engine : Engine) (seed : String) (options : Run.Options)
    {jobs : List Job} (distinct : (jobs.map (·.source)).Nodup) (before : List (Job × Stage)) (progress : Progress)
    (known : ∀ job ∈ jobs, job.partition = progress.cache.partition job.source) :
    ∃ ended after, (∀ state ∈ ended, ∃ result, state.2 = .ended result) ∧
      Schedule project engine seed options.destination (before ++ jobs.map (Job.first project seed options))
        progress.workspace (before ++ ended) after ∧
      steps project engine seed options progress (jobs.map fun job => (job.source, job.scanned)) =
        { ended.foldl (note project seed options) progress with workspace := after } := by
  induction jobs generalizing before progress with
  | nil => exact ⟨[], progress.workspace, nofun, by simpa using .stop, rfl⟩
  | cons job rest ih =>
      obtain ⟨fresh, distinct⟩ := List.nodup_cons.mp distinct
      obtain ⟨knownFirst, knownRest⟩ := List.forall_mem_cons.mp known
      have stepped := step_eq_note project engine seed options progress job knownFirst
      have first := job.schedule_inOrder project engine seed options before
        (rest.map (Job.first project seed options)) progress.workspace
      generalize job.inOrder project engine seed options progress.workspace = outcome at stepped first
      obtain ⟨ended, after, settled, schedule, noted⟩ := ih distinct (before ++ [(job, .ended outcome.1)])
        (step project engine seed options progress job.source job.scanned) fun other member => by
          have different : other.source ≠ job.source := fun same =>
            fresh (List.mem_map.mpr ⟨other, member, same⟩)
          rw [knownRest other member, stepped]
          exact (partition_note_of_ne progress _ different).symm
      refine ⟨(job, .ended outcome.1) :: ended, after, List.forall_mem_cons.mpr ⟨⟨_, rfl⟩, settled⟩, ?_, ?_⟩
      · rw [List.append_assoc, List.append_assoc, stepped] at schedule
        exact first.trans schedule
      · rw [List.map_cons, steps, noted, stepped, foldl_note_workspace, List.foldl_cons]

/-- The run that takes one source after the other is one of those in which the work is interleaved. -/
theorem interleaves_run (present : sources ≠ []) (real : options.dryRun = false)
    (made : (ensureDirectories project workspace.disk).1 = .ok ()) :
    Interleaves project engine seed options sources workspace
      (run project engine seed options sources workspace) := by
  refine ⟨made, ?_⟩
  have pairs : (jobs project sources workspace.disk).map (fun job => (job.source, job.scanned)) =
      filled workspace.disk project sources := by
    simp [jobs, List.map_map, Function.comp_def]
  have distinct : ((jobs project sources workspace.disk).map (·.source)).Nodup := by
    simpa [jobs, List.map_map, Function.comp_def] using nodup_filled workspace.disk project sources
  obtain ⟨ended, after, settled, schedule, noted⟩ := schedule_steps project engine seed options distinct []
    (start project sources workspace) fun job member => by
      obtain ⟨pair, _, rfl⟩ := List.mem_map.mp member
      rw [start_cache]
  rw [pairs] at noted
  exact ⟨ended, after, schedule, settled, by rw [run_eq_finish present real made, last, noted]⟩

end TypedLiterals.Run
