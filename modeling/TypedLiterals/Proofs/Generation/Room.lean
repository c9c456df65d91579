import TypedLiterals.Proofs.Generation.Interleaving

/-!
Runs whose files have nothing to do with each other.

Where all files that a run may touch stand at places of their own, no file above another one, and there is room
for those that it writes, each task of the run has its effect whatever the other tasks have done, and the run
ends as its tasks say.
-/

namespace TypedLiterals

open Disk (Place placeOf above)

variable {effect other : Effect} {effects : List Effect} {path : Path} {paths others : List Path}
  {lists : List (List Path)}

/-! ## Files beside each other -/

/-- Whether files at two paths have nothing to do with each other: they stand at different places, and none of
them on the way to the other one. -/
def Beside (path other : Path) : Prop :=
  placeOf path ≠ placeOf other ∧ placeOf path ∉ above other ∧ placeOf other ∉ above path

instance (path other : Path) : Decidable (Beside path other) :=
  inferInstanceAs (Decidable (_ ∧ _ ∧ _))

instance : Std.Symm Beside := ⟨fun _ _ beside => ⟨beside.1.symm, beside.2.2, beside.2.1⟩⟩

namespace Effect

/-- Whether the places of a task are those of paths. -/
structure On (effect : Effect) (paths : List Path) : Prop where
  own : ∀ place ∈ effect.own, ∃ path ∈ paths, place = placeOf path
  above : ∀ place ∈ effect.above, ∃ path ∈ paths, place ∈ Disk.above path

theorem On.of_places (own : effect.own = paths.map placeOf) (higher : effect.above = paths.flatMap Disk.above) :
    effect.On paths := by
  refine ⟨fun place member => ?_, fun place member => ?_⟩
  · rw [own] at member
    obtain ⟨path, listed, same⟩ := List.mem_map.mp member
    exact ⟨path, listed, same.symm⟩
  · rw [higher] at member
    exact List.mem_flatMap.mp member

theorem On.apart (on : effect.On paths) (also : other.On others)
    (beside : ∀ path ∈ paths, ∀ other ∈ others, Beside path other) : Apart effect other where
  own := by
    intro place member same
    obtain ⟨path, listed, rfl⟩ := on.own place member
    obtain ⟨second, among, equal⟩ := also.own _ same
    exact (beside path listed second among).1 equal
  above := by
    intro place member higher
    obtain ⟨path, listed, rfl⟩ := on.own place member
    obtain ⟨second, among, inside⟩ := also.above _ higher
    exact (beside path listed second among).2.1 inside
  below := by
    intro place member higher
    obtain ⟨second, among, rfl⟩ := also.own place member
    obtain ⟨path, listed, inside⟩ := on.above _ higher
    exact (beside path listed second among).2.2 inside

theorem pairwise_apart (on : List.Forall₂ On effects lists) (beside : lists.flatten.Pairwise Beside) :
    effects.Pairwise Apart := by
  induction on with
  | nil => exact .nil
  | @cons effect paths effects lists first rest ih =>
      obtain ⟨_, later, across⟩ := List.pairwise_append.mp beside
      refine .cons (fun other member => ?_) (ih later)
      obtain ⟨index, bound, rfl⟩ := List.getElem_of_mem member
      have same := rest.length_eq
      refine first.apart (rest.get bound (same ▸ bound)) fun path listed other among => ?_
      exact across path listed other (List.mem_flatten.mpr ⟨_, List.getElem_mem _, among⟩)

end Effect

namespace Run

variable {project : Project} {engine : Engine} {seed : String} {options : Run.Options} {base : Disk}
  {sources : List String} {workspace after : Workspace} {job : Job} {list : List Job} {cache : Cache}
  {outcome : Except Project.Error Report × Workspace}

namespace Job

variable (project : Project) (seed : String) (options : Run.Options) (job : Job)

/-- The files that the tasks of a source work on, task by task. -/
def groups : List (List Path) :=
  (job.pending project seed options).map (·.location.artifacts) ++
    ((job.stale project seed).map ([·]) ++ [[rewritePath project options.destination job.source]])

/-- The files that the work on a source may write. -/
def written : List Path :=
  (job.pending project seed options).flatMap (·.location.artifacts) ++
    [rewritePath project options.destination job.source]

theorem on_effects (engine : Engine) (base : Disk) :
    List.Forall₂ Effect.On (job.effects project engine seed options base) (job.groups project seed options) := by
  refine List.rel_append ?_ (List.rel_append ?_ (.cons ?_ .nil))
  · refine List.forall₂_map_left_iff.mpr (List.forall₂_map_right_iff.mpr (List.forall₂_same.mpr ?_))
    intro record _
    exact .of_places rfl rfl
  · refine List.forall₂_map_left_iff.mpr (List.forall₂_map_right_iff.mpr (List.forall₂_same.mpr ?_))
    intro path _
    exact ⟨fun place own => ⟨path, List.mem_cons_self, List.mem_singleton.mp own⟩,
      fun place higher => ⟨path, List.mem_cons_self, higher⟩⟩
  · exact ⟨fun place own => ⟨_, List.mem_cons_self, List.mem_singleton.mp own⟩,
      fun place higher => ⟨_, List.mem_cons_self, higher⟩⟩

end Job

theorem endEffect_own (project : Project) (options : Run.Options) (cache : Cache) :
    (endEffect project options cache).own = (endPaths project options).map placeOf := by
  rw [endEffect]

theorem endEffect_above (project : Project) (options : Run.Options) (cache : Cache) :
    (endEffect project options cache).above = (endPaths project options).flatMap above := by
  rw [endEffect]

/-- Whether the files of the work on sources, and those of the end of the run, are beside each other, with room
for all that is written and nothing but files to take away. -/
structure Uncrowded (project : Project) (seed : String) (options : Run.Options) (list : List Job) (base : Disk) :
    Prop where
  roomy : base.Roomy (list.flatMap (·.written project seed options) ++ endPaths project options)
  vacant : ∀ path ∈ endPaths project options, base.node? (placeOf path) ≠ some .directory
  removable : ∀ job ∈ list, ∀ path ∈ job.stale project seed, Removable base path
  beside : (list.flatMap (fun job => (job.groups project seed options).flatten) ++
    endPaths project options).Pairwise Beside

namespace Uncrowded

variable (uncrowded : Uncrowded project seed options list base)
include uncrowded

theorem roomy_of_mem (member : job ∈ list) : base.Roomy (job.written project seed options) :=
  uncrowded.roomy.mono fun _ inside => List.mem_append_left _ (List.mem_flatMap.mpr ⟨job, member, inside⟩)

theorem doable (local_ : Generation.Local engine) (member : job ∈ list) :
    job.Doable project engine seed options base where
  generate := by
    intro record pending
    refine Generation.generate_performs local_ ((uncrowded.roomy_of_mem member).mono fun path inside => ?_)
    exact List.mem_append_left _ (List.mem_flatMap.mpr ⟨record, pending, inside⟩)
  free := fun path stale => free_performs (uncrowded.removable job member path stale)
  rewrite := by
    refine rewrite_performs ((uncrowded.roomy_of_mem member).mono fun path inside => ?_)
    exact List.mem_append_right _ inside

/-- All tasks of a run are apart, those of its end too. -/
theorem apart (engine : Engine) (cache : Cache) :
    (allEffects project engine seed options base list ++ [endEffect project options cache]).Pairwise
      Effect.Apart := by
  have on : List.Forall₂ Effect.On (allEffects project engine seed options base list)
      (list.flatMap (·.groups project seed options)) := by
    unfold allEffects
    generalize list = jobs
    induction jobs with
    | nil => exact .nil
    | cons first rest ih =>
        rw [List.flatMap_cons, List.flatMap_cons]
        exact List.rel_append (first.on_effects project seed options engine base) ih
  have all : List.Forall₂ Effect.On
      (allEffects project engine seed options base list ++ [endEffect project options cache])
      (list.flatMap (·.groups project seed options) ++ [endPaths project options]) :=
    List.rel_append on
      (.cons (.of_places (endEffect_own project options cache) (endEffect_above project options cache)) .nil)
  refine Effect.pairwise_apart all ?_
  rw [List.flatten_append, List.flatten_singleton, List.flatMap_def, List.flatten_flatten, List.map_map,
    ← List.flatMap_def]
  exact uncrowded.beside

theorem closable : Closable project options base where
  roomy := uncrowded.roomy.mono (List.subset_append_right _ _)
  vacant := uncrowded.vacant
  apart := List.pairwise_map.mpr ((List.pairwise_append.mp uncrowded.beside).2.1.imp fun beside => beside.1)

end Uncrowded

theorem Closable.of_fits {disk : Disk} (closable : Closable project options base)
    (fits : (endEffect project options cache).Fits base.node? disk.node?) : Closable project options disk := by
  have own : ∀ path ∈ endPaths project options, disk.node? (placeOf path) = base.node? (placeOf path) := by
    intro path member
    refine fits.1 _ ?_
    rw [endEffect_own]
    exact List.mem_map_of_mem member
  refine ⟨closable.roomy.congr own fun path member place inside => ?_, fun path member => ?_, closable.apart⟩
  · refine fits.2 _ ?_
    rw [endEffect_above]
    exact List.mem_flatMap.mpr ⟨path, member, inside⟩
  · rw [own path member]
    exact closable.vacant path member

/-- What is noted of a run when each of its sources has come to its end. -/
def noted (project : Project) (engine : Engine) (seed : String) (options : Run.Options) (base : Disk)
    (list : List Job) (progress : Progress) : Progress :=
  (list.map fun job => (job, Stage.ended (job.result project engine seed options base))).foldl
    (note project seed options) progress

/-- What a run reports when each of its sources has come to its end. -/
def notedReport (project : Project) (engine : Engine) (seed : String) (options : Run.Options) (base : Disk)
    (list : List Job) (progress : Progress) : Report :=
  { (noted project engine seed options base list progress).report with
    entrypoint := if options.entrypoint then some project.entrypoint else none }

/-- Whatever the schedule, a run comes to what its tasks say. -/
theorem Interleaves.comes (interleaves : Interleaves project engine seed options sources workspace outcome)
    (uncrowded : Uncrowded project seed options (jobs project sources workspace.disk) base)
    (local_ : Generation.Local engine)
    (fits : ∀ effect ∈ allEffects project engine seed options base (jobs project sources workspace.disk),
      effect.Fits base.node? (ensureDirectories project workspace.disk).2.node?)
    (closable : Closable project options (ensureDirectories project workspace.disk).2) :
    ∃ after, outcome = (.ok (notedReport project engine seed options base (jobs project sources workspace.disk)
        (start project sources workspace)), after) ∧
      Effect.Leaves (allDue project engine seed options base (jobs project sources workspace.disk) ++
        [endEffect project options (noted project engine seed options base
          (jobs project sources workspace.disk) (start project sources workspace)).cache])
        (start project sources workspace).workspace after := by
  obtain ⟨_, ended, middle, schedule, settled, rfl⟩ := interleaves
  rw [← start_disk project sources workspace] at fits closable
  generalize jobs project sources workspace.disk = list at *
  generalize start project sources workspace = begun at *
  generalize known : (noted project engine seed options base list begun).cache = cache
  obtain ⟨apart, _, across⟩ := List.pairwise_append.mp (uncrowded.apart engine cache)
  obtain ⟨rfl, leaves⟩ := schedule.comes settled apart (fun job member => uncrowded.doable local_ member) fits
  have still : (endEffect project options cache).Fits begun.workspace.disk.node? middle.disk.node? :=
    leaves.fits (.refl _ _) fun other member =>
      (across other (allDue_subperm list |>.subset member) _ List.mem_cons_self).symm
  obtain ⟨after, finished, closed⟩ := finish_leaves
    { noted project engine seed options base list begun with workspace := middle } (closable.of_fits still)
  exact ⟨after, finished, leaves.trans (known ▸ closed)⟩

/-- Whether a run finds its directories, and files beside each other with room for all that it writes. -/
structure Spacious (project : Project) (seed : String) (options : Run.Options) (sources : List String)
    (disk : Disk) : Prop where
  prepared : (ensureDirectories project disk).1 = .ok ()
  uncrowded : Uncrowded project seed options (jobs project sources disk) (ensureDirectories project disk).2

/-! ## A small run -/

theorem ends_of_getLast {name : String} (named : Disk.Named path)
    (last : (Disk.pathNames path.text).getLast? = some name) (plain : Disk.IsPlain name) : Disk.Ends path := by
  obtain ⟨front, names⟩ := List.getLast?_eq_some_iff.mp last
  exact ⟨named, front, name, names, plain⟩

theorem roomy_of_beside (beside : paths.Pairwise Beside) (ends : ∀ path ∈ paths, Disk.Ends path)
    (passable : ∀ path ∈ paths, ∀ place ∈ above path, base.node? place = none ∨ base.node? place = some .directory)
    (noLink : ∀ path ∈ paths, ∀ target, base.node? (placeOf path) ≠ some (.link target))
    (outside : ∀ path ∈ paths, placeOf path ∉ above path) : base.Roomy paths where
  ends := ends
  passable := passable
  noLink := noLink
  apart := by
    intro path member other also
    by_cases same : path = other
    · exact same ▸ outside path member
    · exact (beside.forall member also same).2.1

/-- A disk with two sources that have the same literal. -/
def pairDisk : Disk := ⟨[(["a.ts"], .file smallSource.toUTF8), (["b.ts"], .file smallSource.toUTF8)]⟩

theorem pairDisk_noLink (place : Place) (target : String) : pairDisk.node? place ≠ some (.link target) := by
  intro stands
  unfold Disk.node? at stands
  split at stands
  · cases stands
  · simp only [pairDisk, Disk.lookup_cons] at stands
    split at stands
    · cases stands
    · split at stands <;> cases stands

/-- The files of a run over both sources. -/
def pairPaths : List Path :=
  ["/c/t/a.ts-ca978112ca1bbdcafac231b39a23dc4da786eff8147c4e72b9807785afee48bb.tsx",
    "/t/a.ts-ca978112ca1bbdcafac231b39a23dc4da786eff8147c4e72b9807785afee48bb.d.ts", "/a.ts",
    "/c/t/b.ts-ca978112ca1bbdcafac231b39a23dc4da786eff8147c4e72b9807785afee48bb.tsx",
    "/t/b.ts-ca978112ca1bbdcafac231b39a23dc4da786eff8147c4e72b9807785afee48bb.d.ts", "/b.ts",
    "/c/literals.json", "/c/literals.json.tmp", "/i"].map Path.mk

theorem beside_pairPaths : pairPaths.Pairwise Beside := by
  decide +kernel

theorem room_pairPaths :
    let base := (ensureDirectories smallProject pairDisk).2
    ∀ path ∈ pairPaths, path.text.isEmpty = false ∧ Disk.endsInSlash path.text = false ∧
      (∃ name ∈ (Disk.pathNames path.text).getLast?, name ≠ "." ∧ name ≠ "..") ∧
      base.node? (placeOf path) ≠ some .directory ∧ placeOf path ∉ above path ∧
      ∀ place ∈ above path, base.node? place = none ∨ base.node? place = some .directory := by
  decide +kernel

theorem pairRun_tasks :
    let base := (ensureDirectories smallProject pairDisk).2
    let list := jobs smallProject ["a.ts", "b.ts"] pairDisk
    (ensureDirectories smallProject pairDisk).1.toOption = some () ∧
    list.flatMap (·.written smallProject "" {}) ++ endPaths smallProject {} = pairPaths ∧
    (list.map (fun job => (job.source, (job.groups smallProject "" {}).flatten)) =
        [("a.ts", pairPaths.take 3), ("b.ts", (pairPaths.drop 3).take 3)] ∧
      endPaths smallProject {} = pairPaths.drop 6) ∧
    ∀ job ∈ list, job.stale smallProject "" = [] ∧
      (rewriteAnswer smallProject "" .inPlace base job.source job.scanned job.partition).toOption =
        some (rewritePath smallProject .inPlace job.source) ∧
      ∀ record ∈ job.pending smallProject "" {},
        (Generation.answer smallProject blankEngine base record).toOption = some () := by
  decide +kernel

theorem pairRun_groups :
    (jobs smallProject ["a.ts", "b.ts"] pairDisk).flatMap (fun job => (job.groups smallProject "" {}).flatten) ++
      endPaths smallProject {} = pairPaths := by
  obtain ⟨_, _, ⟨groups, ends⟩, _⟩ := pairRun_tasks
  have all := congrArg (fun list => (list.map Prod.snd).flatten) groups
  rw [List.map_map] at all
  rw [List.flatMap_def, ends]
  exact congrArg (· ++ pairPaths.drop 6) all

theorem spacious_pairDisk : Spacious smallProject "" {} ["a.ts", "b.ts"] pairDisk := by
  obtain ⟨prepared, written, _, tasks⟩ := pairRun_tasks
  have room := room_pairPaths
  have noLink : ∀ place target,
      (ensureDirectories smallProject pairDisk).2.node? place ≠ some (.link target) :=
    fun place target link => pairDisk_noLink place target
      ((ensureDirectories_grows smallProject pairDisk).keeps.links place target link)
  have roomy : (ensureDirectories smallProject pairDisk).2.Roomy pairPaths := by
    refine roomy_of_beside beside_pairPaths (fun path member => ?_) (fun path member => (room path member).2.2.2.2.2)
      (fun _ _ => noLink _) fun path member => (room path member).2.2.2.2.1
    obtain ⟨nonempty, noSlash, ⟨name, last, plain⟩, _⟩ := room path member
    exact ends_of_getLast ⟨nonempty, noSlash⟩ last plain
  refine ⟨?_, by rw [written]; exact roomy, fun path member => ?_, fun job member path stale => ?_, by
    rw [pairRun_groups]; exact beside_pairPaths⟩
  · exact eq_ok_of_toOption prepared
  · refine (room path ?_).2.2.2.1
    rw [← written]
    exact List.mem_append_right _ member
  · rw [(tasks job member).1] at stale
    cases stale

end Run

end TypedLiterals
