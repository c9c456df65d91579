import TypedLiterals.Proofs.Generation.Effect

/-!
Runs in which the work on several sources is interleaved.

The work on a source is a row of tasks: artifacts are generated in any order, then stale ones are taken away
in any order, and at last the source is written. A schedule lets any source that is not done do any task that
it may do next. Whatever the schedule, every source comes to the same end, and all of them leave what their
tasks would have done at the beginning.
-/

namespace TypedLiterals.Run

open Disk (Place Node placeOf above)

/-! ## Work on one source -/

/-- A source with all that the work on it depends on. -/
structure Job where
  source : String
  scanned : SourceScan
  partition : Partition

/-- How far the work on a source has come. -/
inductive Stage where
  /-- Artifacts are generated. A record that is done has its answer. -/
  | generating (slots : List (Record × Option (Except Project.Error Unit)))
  /-- Stale artifacts are taken away. -/
  | freeing (freed left : List Path)
  /-- Nothing is left to do. -/
  | ended (result : Except Project.Error Path)

namespace Job

def plan (project : Project) (seed : String) (job : Job) : Plan :=
  .ofScan project seed job.source job.scanned job.partition

/-- The records that are generated for. -/
def pending (project : Project) (seed : String) (options : Run.Options) (job : Job) : List Record :=
  match options.timing with
  | .inline => Generation.missingFrom [] (job.plan project seed).records
  | .deferred => []

/-- The stale artifacts that are taken away. -/
def stale (project : Project) (seed : String) (job : Job) : List Path :=
  discarded project seed job.source job.scanned job.partition

/-- The work on a source before its first task. -/
def first (project : Project) (seed : String) (options : Run.Options) (job : Job) : Job × Stage :=
  (job, .generating ((job.pending project seed options).map fun record => (record, none)))

/-- Writes the source in its new form. -/
def rewrite (project : Project) (seed : String) (destination : Destination) (job : Job) :
    Workspace → Except Project.Error Path × Workspace :=
  Run.rewrite project seed destination job.source job.scanned job.partition

/-- The tasks that the work on a source may do next. It goes on to the next stage when all tasks of a stage
are done, unless generating failed for a record; the first of these counts. -/
inductive Moves (project : Project) (engine : Engine) (seed : String) (destination : Destination) (job : Job) :
    Stage → Workspace → Stage → Workspace → Prop
  | generate {front back : List (Record × Option (Except Project.Error Unit))} {record : Record}
      {workspace : Workspace} :
      Moves project engine seed destination job
        (.generating (front ++ (record, none) :: back)) workspace
        (.generating (front ++ (record, some (Generation.generate project engine record workspace).1) :: back))
        (Generation.generate project engine record workspace).2
  | generated {slots : List (Record × Option (Except Project.Error Unit))} {workspace : Workspace} :
      (∀ slot ∈ slots, slot.2 = some (.ok ())) →
      Moves project engine seed destination job (.generating slots) workspace
        (.freeing [] (job.stale project seed)) workspace
  | failed {front back : List (Record × Option (Except Project.Error Unit))} {record : Record}
      {cause : Project.Error} {workspace : Workspace} :
      (∀ slot ∈ front, slot.2 = some (.ok ())) → (∀ slot ∈ back, slot.2.isSome) →
      Moves project engine seed destination job
        (.generating (front ++ (record, some (.error cause)) :: back)) workspace
        (.ended (.error cause)) workspace
  | free {freed front back : List Path} {path : Path} {workspace : Workspace} :
      Moves project engine seed destination job (.freeing freed (front ++ path :: back)) workspace
        (.freeing (freed ++ [path]) (front ++ back)) (free path workspace).2
  | rewrite {freed : List Path} {workspace : Workspace} :
      Moves project engine seed destination job (.freeing freed []) workspace
        (.ended (job.rewrite project seed destination workspace).1)
        (job.rewrite project seed destination workspace).2

end Job

/-- A schedule: one source after another does one of its next tasks. -/
inductive Schedule (project : Project) (engine : Engine) (seed : String) (destination : Destination) :
    List (Job × Stage) → Workspace → List (Job × Stage) → Workspace → Prop
  | stop {states : List (Job × Stage)} {workspace : Workspace} :
      Schedule project engine seed destination states workspace states workspace
  | move {front back states : List (Job × Stage)} {job : Job} {stage next : Stage}
      {workspace middle after : Workspace} :
      job.Moves project engine seed destination stage workspace next middle →
      Schedule project engine seed destination (front ++ (job, next) :: back) middle states after →
      Schedule project engine seed destination (front ++ (job, stage) :: back) workspace states after

/-- Notes what came of the work on a source. -/
def note (project : Project) (seed : String) (options : Run.Options) (progress : Progress)
    (state : Job × Stage) : Progress :=
  match state with
  | (job, .ended (.ok path)) =>
    progress.done
      ⟨job.source, (job.plan project seed).records, (job.pending project seed options).length,
        (job.plan project seed).stale, some path⟩
      (updated project seed job.source job.scanned job.partition) progress.workspace
  | (job, .ended (.error cause)) => progress.failed job.source cause progress.workspace
  | _ => progress

/-- The work of a run on its sources. -/
def jobs (project : Project) (sources : List String) (disk : Disk) : List Job :=
  (filled disk project sources).map fun pair =>
    ⟨pair.1, pair.2, (Cache.load disk project).partition pair.1⟩

/-- What a run may come to when the work on its sources is interleaved: the sources follow a schedule until
all are done, and what came of them is noted in their order before the run ends. -/
def Interleaves (project : Project) (engine : Engine) (seed : String) (options : Run.Options)
    (sources : List String) (workspace : Workspace) (outcome : Except Project.Error Report × Workspace) : Prop :=
  (ensureDirectories project workspace.disk).1 = .ok () ∧
  ∃ states after, Schedule project engine seed options.destination
      ((jobs project sources workspace.disk).map (Job.first project seed options))
      (start project sources workspace).workspace states after ∧
    (∀ state ∈ states, ∃ result, state.2 = .ended result) ∧
    outcome = finish project options
      { states.foldl (note project seed options) (start project sources workspace) with workspace := after }

/-! ## What the work comes to -/

namespace Job

variable (project : Project) (engine : Engine) (seed : String) (options : Run.Options) (base : Disk) (job : Job)

/-- What generating would answer at the beginning. -/
def answers : List (Except Project.Error Unit) :=
  (job.pending project seed options).map (Generation.answer project engine base)

/-- What the work on the source comes to. -/
def result : Except Project.Error Path :=
  match Generation.firstError (job.answers project engine seed options base) with
  | .error cause => .error cause
  | .ok _ => (job.rewrite project seed options.destination ⟨base, []⟩).1

/-- What generating does. -/
def generations : List Effect :=
  (job.pending project seed options).map (Generation.effect project engine base)

/-- What is done after generating. -/
def closing : List Effect :=
  (job.stale project seed).map (freeEffect base) ++
    [rewriteEffect project seed options.destination base job.source job.scanned job.partition]

/-- What all tasks of the source would do. -/
def effects : List Effect :=
  job.generations project engine seed options base ++ job.closing project seed options base

/-- What the tasks do that the source comes to. -/
def due : List Effect :=
  job.generations project engine seed options base ++
    match Generation.firstError (job.answers project engine seed options base) with
    | .error _ => []
    | .ok _ => job.closing project seed options base

/-- What the tasks have done that the source has behind it. -/
def done : Stage → List Effect
  | .generating slots =>
    (slots.filter (·.2.isSome)).map fun slot => Generation.effect project engine base slot.1
  | .freeing freed _ => job.generations project engine seed options base ++ freed.map (freeEffect base)
  | .ended _ => job.due project engine seed options base

/-- Whether a stage of the work has come about with the answers that the tasks would have at the
beginning. -/
def Sound : Stage → Prop
  | .generating slots => slots.map (·.1) = job.pending project seed options ∧
      ∀ slot ∈ slots, ∀ answer, slot.2 = some answer → answer = Generation.answer project engine base slot.1
  | .freeing freed left =>
    Generation.firstError (job.answers project engine seed options base) = .ok () ∧
      (freed ++ left).Perm (job.stale project seed)
  | .ended result => result = job.result project engine seed options base

variable {project engine seed options base job} {stage next : Stage} {workspace middle after : Workspace}

theorem due_subperm : (job.due project engine seed options base).Subperm
    (job.effects project engine seed options base) := by
  unfold due effects
  split
  · rw [List.append_nil]
    exact (List.sublist_append_left _ _).subperm
  · exact List.Subperm.refl _

theorem done_generating_subperm {slots : List (Record × Option (Except Project.Error Unit))}
    (listed : slots.map (·.1) = job.pending project seed options) :
    (job.done project engine seed options base (.generating slots)).Subperm
      (job.effects project engine seed options base) := by
  have all : job.generations project engine seed options base =
      slots.map fun slot => Generation.effect project engine base slot.1 := by
    rw [generations, ← listed, List.map_map]
    rfl
  rw [effects, all]
  exact ((List.filter_sublist.map _).trans (List.sublist_append_left _ _)).subperm

theorem done_freeing_subperm {freed left : List Path}
    (listed : (freed ++ left).Perm (job.stale project seed)) :
    (job.done project engine seed options base (.freeing freed left)).Subperm
      (job.effects project engine seed options base) := by
  rw [done, effects, closing]
  refine (List.subperm_append_left _).mpr ?_
  have part : (freed.map (freeEffect base)).Subperm ((job.stale project seed).map (freeEffect base)) :=
    ((List.sublist_append_left freed left).map _).subperm.trans (listed.map _).subperm
  exact part.trans (List.sublist_append_left _ _).subperm

theorem Sound.subperm (sound : job.Sound project engine seed options base stage) :
    (job.done project engine seed options base stage).Subperm
      (job.effects project engine seed options base) := by
  cases stage with
  | generating slots => exact done_generating_subperm sound.1
  | freeing freed left => exact done_freeing_subperm sound.2
  | ended result => exact due_subperm

variable (project engine seed options base job) in
/-- Whether all tasks of a source have their effects wherever they find their own places as they were. -/
structure Doable : Prop where
  generate : ∀ record ∈ job.pending project seed options,
    (Generation.effect project engine base record).Performs base.node?
      (Generation.answer project engine base record) (Generation.generate project engine record)
  free : ∀ path ∈ job.stale project seed, (freeEffect base path).Performs base.node? () (free path)
  rewrite : (rewriteEffect project seed options.destination base job.source job.scanned
      job.partition).Performs base.node?
    (job.rewrite project seed options.destination ⟨base, []⟩).1 (job.rewrite project seed options.destination)

theorem done_answered {front back : List (Record × Option (Except Project.Error Unit))} (record : Record)
    (answer : Except Project.Error Unit) :
    (job.done project engine seed options base (.generating (front ++ (record, some answer) :: back))).Perm
      (job.done project engine seed options base (.generating (front ++ (record, none) :: back)) ++
        [Generation.effect project engine base record]) := by
  simp only [done, List.filter_append, List.map_append, List.filter_cons, Option.isSome_some,
    Option.isSome_none, Bool.false_eq_true, if_true, if_false, List.map_cons, List.append_assoc]
  exact (List.perm_append_singleton _ _).symm.append_left _

/-- Once every record has its answer all that generating does is done. -/
theorem done_of_all_answered {slots : List (Record × Option (Except Project.Error Unit))}
    (listed : slots.map (·.1) = job.pending project seed options) (all : ∀ slot ∈ slots, slot.2.isSome) :
    job.done project engine seed options base (.generating slots) =
      job.generations project engine seed options base := by
  rw [done, generations, ← listed, List.filter_eq_self.mpr all, List.map_map]
  rfl

/-- Where all records went well there is no error to report. -/
theorem Sound.firstError_generated {slots : List (Record × Option (Except Project.Error Unit))}
    (sound : job.Sound project engine seed options base (.generating slots))
    (all : ∀ slot ∈ slots, slot.2 = some (.ok ())) :
    Generation.firstError (job.answers project engine seed options base) = .ok () := by
  obtain ⟨listed, answered⟩ := sound
  refine Generation.firstError_of_ok fun answer member => ?_
  rw [answers, ← listed, List.map_map] at member
  obtain ⟨slot, inside, rfl⟩ := List.mem_map.mp member
  exact (answered slot inside _ (all slot inside)).symm

/-- The first record that failed gives the error. -/
theorem Sound.firstError_failed {front back : List (Record × Option (Except Project.Error Unit))}
    {record : Record} {cause : Project.Error}
    (sound : job.Sound project engine seed options base
      (.generating (front ++ (record, some (.error cause)) :: back)))
    (before : ∀ slot ∈ front, slot.2 = some (.ok ())) :
    Generation.firstError (job.answers project engine seed options base) = .error cause := by
  obtain ⟨listed, answered⟩ := sound
  rw [answers, ← listed, List.map_map, List.map_append, List.map_cons, Function.comp_apply,
    ← answered _ (by simp) _ rfl]
  refine Generation.firstError_append fun answer member => ?_
  obtain ⟨slot, inside, rfl⟩ := List.mem_map.mp member
  exact (answered slot (List.mem_append_left _ inside) _ (before slot inside)).symm

/-- What a task does to the work on its source: the stage stays sound, and the task has its effect. -/
theorem Moves.sound (moves : job.Moves project engine seed options.destination stage workspace next middle)
    (doable : job.Doable project engine seed options base)
    (sound : job.Sound project engine seed options base stage)
    (fits : ∀ effect, (job.done project engine seed options base stage ++ [effect]).Subperm
      (job.effects project engine seed options base) → effect.Fits base.node? workspace.disk.node?) :
    job.Sound project engine seed options base next ∧ ∃ added, Effect.Leaves added workspace middle ∧
      (job.done project engine seed options base next).Perm
        (job.done project engine seed options base stage ++ added) := by
  cases moves with
  | @generate front back record =>
      obtain ⟨listed, answered⟩ := sound
      rw [List.map_append, List.map_cons] at listed
      have member : record ∈ job.pending project seed options := by simp [← listed]
      -- The answer is not known before, but whatever it is the same effect is added to what is done.
      have part : (job.done project engine seed options base
          (.generating (front ++ (record, some (.ok ())) :: back))).Subperm
          (job.effects project engine seed options base) :=
        done_generating_subperm (by rw [List.map_append, List.map_cons, listed])
      obtain ⟨answer, leaves⟩ := doable.generate record member workspace
        (fits _ ((done_answered record (.ok ())).symm.subperm.trans part))
      refine ⟨⟨by rw [List.map_append, List.map_cons, listed], fun slot inside known found => ?_⟩, _, leaves,
        done_answered _ _⟩
      rcases List.mem_append.mp inside with before | inside
      · exact answered slot (List.mem_append_left _ before) known found
      · rcases List.mem_cons.mp inside with rfl | behind
        · rw [← Option.some.inj found, answer]
        · exact answered slot (List.mem_append_right _ (List.mem_cons_of_mem _ behind)) known found
  | @generated slots _ all =>
      refine ⟨⟨sound.firstError_generated all, by simp⟩, [], .refl _, ?_⟩
      rw [done_of_all_answered sound.1 fun slot member => by simp [all slot member]]
      simp [done]
  | @failed front back record cause _ before behind =>
      have failed := sound.firstError_failed before
      refine ⟨by rw [Sound, result, failed], [], .refl _, ?_⟩
      have all : ∀ slot ∈ front ++ (record, some (.error cause)) :: back, slot.2.isSome := by
        intro slot member
        rcases List.mem_append.mp member with inside | inside
        · simp [before slot inside]
        · rcases List.mem_cons.mp inside with rfl | inside
          · rfl
          · exact behind slot inside
      rw [done_of_all_answered sound.1 all, done, due, failed, List.append_nil]
  | @free freed front back path =>
      obtain ⟨ok, listed⟩ := sound
      have moved : ((freed ++ [path]) ++ (front ++ back)).Perm (job.stale project seed) := by
        refine List.Perm.trans ?_ listed
        rw [List.append_assoc, List.singleton_append]
        exact List.perm_middle.symm.append_left _
      have same : job.done project engine seed options base (.freeing (freed ++ [path]) (front ++ back)) =
          job.done project engine seed options base (.freeing freed (front ++ path :: back)) ++
            [freeEffect base path] := by
        simp [done]
      have part : (job.done project engine seed options base
          (.freeing (freed ++ [path]) (front ++ back))).Subperm
          (job.effects project engine seed options base) := done_freeing_subperm moved
      rw [same] at part
      have member : path ∈ job.stale project seed := listed.mem_iff.mp (by simp)
      obtain ⟨_, leaves⟩ := doable.free path member workspace (fits _ part)
      exact ⟨⟨ok, moved⟩, _, leaves, same ▸ .refl _⟩
  | @rewrite freed =>
      obtain ⟨ok, listed⟩ := sound
      rw [List.append_nil] at listed
      have same : (job.due project engine seed options base).Perm
          (job.done project engine seed options base (.freeing freed []) ++
            [rewriteEffect project seed options.destination base job.source job.scanned job.partition]) := by
        rw [due, ok, done, closing, List.append_assoc]
        exact ((listed.symm.map _).append_right _).append_left _
      obtain ⟨answer, leaves⟩ := doable.rewrite workspace
        (fits _ (same.symm.subperm.trans due_subperm))
      exact ⟨by rw [Sound, result, ok, answer], _, leaves, same⟩

end Job

end TypedLiterals.Run
