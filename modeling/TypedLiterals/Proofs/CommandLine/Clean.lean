import TypedLiterals.CommandLine.Execution
import TypedLiterals.Proofs.Disk.Removal

/-!
What cleaning takes away.

Cleaning takes away what stands at the cache directory, at the root segment of the declarations and at the
entrypoint, or below them, and nothing else, whatever it is. So it spares what the user has written exactly
when none of it stands there.
-/

namespace TypedLiterals.CommandLine

open Disk (Place placeOf way)

variable {project : Project} {disk after : Disk} {targets : List Path} {place : Place}
  {removals : List Removal} {setting : Setting} {invocation : Invocation}

namespace Clean

/-- Whether a place is at a target that exists, or below one. -/
def Takes (disk : Disk) (targets : List Path) (place : Place) : Prop :=
  ∃ target ∈ targets, disk.pathExists target = true ∧ placeOf target <+: place

instance (disk : Disk) (targets : List Path) (place : Place) : Decidable (Takes disk targets place) :=
  inferInstanceAs (Decidable (∃ target ∈ targets, disk.pathExists target = true ∧ placeOf target <+: place))

/-- Whether a target names a place or one above it. -/
def Names (disk : Disk) (targets : List Path) (place : Place) : Prop :=
  ∃ target ∈ targets, ∃ base, disk.locate false target = .ok (.present base) ∧ base <+: place

theorem Names.of_shrinks (shrinks : disk.Shrinks after) (names : Names after targets place) :
    Names disk targets place := by
  obtain ⟨target, member, base, located, inside⟩ := names
  exact ⟨target, member, base, Disk.locate_of_shrinks shrinks located, inside⟩

/-- Whether targets pass no link, and none but at or below an earlier one goes through it. -/
structure Steady (disk : Disk) (targets : List Path) : Prop where
  direct : ∀ target ∈ targets, disk.Direct target
  apart : targets.Pairwise fun first later =>
    ∀ passed ∈ way (Disk.pathNames later.text), placeOf first <+: passed → placeOf first <+: placeOf later

/-- Where no target leads up, none can go through another one and leave it. -/
theorem Steady.of_level (direct : ∀ target ∈ targets, disk.Direct target)
    (level : ∀ target ∈ targets, ".." ∉ Disk.pathNames target.text) : Steady disk targets where
  direct
  apart := by
    rw [List.pairwise_iff_forall_sublist]
    intro first later both passed member inside
    exact inside.trans (Disk.prefix_placeOf (level later (both.subset (by simp))) member)

/-- What changes is taken away, and a target names it. -/
theorem sweep_cases (rooted : disk.Rooted) (project : Project) (dryRun : Bool) (targets : List Path) :
    disk.Shrinks (sweep project dryRun targets disk).2 ∧
    ∀ place, (sweep project dryRun targets disk).2.node? place ≠ disk.node? place →
      dryRun = false ∧ Names disk targets place := by
  induction targets generalizing disk with
  | nil => exact ⟨.refl disk, fun place changed => absurd rfl changed⟩
  | cons target rest ih =>
      have skipped : disk.Shrinks (sweep project dryRun rest disk).2 ∧
          ∀ place, (sweep project dryRun rest disk).2.node? place ≠ disk.node? place →
            dryRun = false ∧ Names disk (target :: rest) place := by
        refine ⟨(ih rooted).1, fun place changed => ?_⟩
        obtain ⟨real, other, member, base, named⟩ := (ih rooted).2 place changed
        exact ⟨real, other, List.mem_cons_of_mem _ member, base, named⟩
      rw [sweep]
      split
      · cases dryRun with
        | true => exact skipped
        | false =>
            rcases Disk.removeAny_cases rooted target with ⟨fault, same⟩ |
              ⟨base, after, located, ⟨same, cleared⟩ | ⟨⟨fault, same⟩, emptied⟩⟩
            · simp only [same, Bool.false_eq_true, if_false]
              exact ⟨.refl disk, fun place changed => absurd rfl changed⟩
            · simp only [same, Bool.false_eq_true, if_false]
              obtain ⟨shrinks, later⟩ := ih (cleared.rooted rooted)
              refine ⟨cleared.shrinks.trans shrinks, fun place changed => ⟨trivial, ?_⟩⟩
              by_cases kept : after.node? place = disk.node? place
              · rw [← kept] at changed
                obtain ⟨other, member, named⟩ := (later place changed).2.of_shrinks cleared.shrinks
                exact ⟨other, List.mem_cons_of_mem _ member, named⟩
              · refine ⟨target, List.mem_cons_self, base, located, ?_⟩
                by_contra apart
                refine kept ?_
                by_cases root : place = []
                · rw [root, Disk.node?_root, Disk.node?_root]
                · rw [cleared place root, if_neg apart]
            · simp only [same, Bool.false_eq_true, if_false]
              refine ⟨emptied.shrinks, fun place changed =>
                ⟨trivial, target, List.mem_cons_self, base, located, ?_⟩⟩
              by_contra apart
              exact changed (by rw [emptied place, if_neg fun both => apart both.1])
      · exact skipped

/-- Steady targets that exist are cleared, and nothing else is. -/
theorem sweep_exact (rooted : disk.Rooted) (steady : Steady disk targets)
    (swept : sweep project false targets disk = (.ok removals, after)) (below : place ≠ []) :
    after.node? place = if Takes disk targets place then none else disk.node? place := by
  -- By induction on the targets. Taking the first one leaves the later ones steady, since none of their ways
  -- passes through its tree.
  induction targets generalizing disk removals with
  | nil =>
      cases swept
      rw [if_neg]
      rintro ⟨_, member, _⟩
      cases member
  | cons target rest ih =>
      obtain ⟨direct, others⟩ := List.forall_mem_cons.mp steady.direct
      obtain ⟨apart, apartLater⟩ := List.pairwise_cons.mp steady.apart
      rw [sweep] at swept
      split at swept
      · next found =>
        rcases Disk.removeAny_cases rooted target with ⟨fault, same⟩ |
          ⟨base, middle, located, ⟨same, cleared⟩ | ⟨⟨fault, same⟩, emptied⟩⟩
        · simp [same] at swept
        · simp only [same, Bool.false_eq_true, if_false] at swept
          have here : base = placeOf target := direct.place_eq (Disk.locate_eq_ok located).1
          subst here
          obtain ⟨later, swept⟩ : ∃ later, sweep project false rest middle = (.ok later, after) := by
            cases result : sweep project false rest middle with
            | mk outcome last =>
                rw [result] at swept
                cases outcome with
                | error cause => simp [Except.map] at swept
                | ok later => exact ⟨later, by simp_all⟩
          have shrinks := cleared.shrinks
          have stays : Steady middle rest :=
            ⟨fun other member => (others other member).of_shrinks shrinks, apartLater⟩
          rw [ih (cleared.rooted rooted) stays swept]
          by_cases inside : placeOf target <+: place
          · rw [cleared place below, if_pos inside, ite_self, if_pos ⟨target, List.mem_cons_self, found, inside⟩]
          · have same : Takes middle rest place ↔ Takes disk (target :: rest) place := by
              constructor
              · rintro ⟨other, member, exists_, covers⟩
                obtain ⟨spot, node, led, stands⟩ := Disk.pathExists_iff.mp exists_
                exact ⟨other, List.mem_cons_of_mem _ member, Disk.pathExists_iff.mpr
                  ⟨spot, node, Disk.locate_of_shrinks shrinks led, shrinks.stood stands⟩, covers⟩
              · rintro ⟨other, member, exists_, covers⟩
                rcases List.mem_cons.mp member with rfl | member
                · exact absurd covers inside
                · refine ⟨other, member, ?_, covers⟩
                  rw [← exists_, Disk.pathExists, Disk.pathExists, (others other member).status_congr]
                  -- What stands on the way of a later target is still there, since it was not in the tree.
                  intro passed passes
                  by_cases root : passed = []
                  · rw [root, Disk.node?_root, Disk.node?_root]
                  · rw [cleared passed root, if_neg fun under =>
                      inside ((apart other member passed passes under).trans covers)]
            rw [cleared place below, if_neg inside]
            exact if_congr same rfl rfl
        · simp [same] at swept
      · next missing =>
        rw [ih rooted ⟨others, apartLater⟩ swept]
        refine if_congr ⟨?_, ?_⟩ rfl rfl
        · rintro ⟨other, member, found⟩
          exact ⟨other, List.mem_cons_of_mem _ member, found⟩
        · rintro ⟨other, member, found⟩
          rcases List.mem_cons.mp member with rfl | member
          · exact absurd found.1 missing
          · exact ⟨other, member, found⟩

end Clean

theorem disk_clean (opened : openProject setting disk invocation = .ok project) :
    (clean setting invocation disk).disk =
      (Clean.sweep project invocation.dryRun (Clean.targets project) disk).2 := by
  rw [clean, opened]
  dsimp only
  split
  · rfl
  · split
    · rfl
    · rfl

theorem clean_exact (rooted : disk.Rooted) (opened : openProject setting disk invocation = .ok project)
    (real : invocation.dryRun = false) (success : (clean setting invocation disk).failure = none)
    (steady : Clean.Steady disk (Clean.targets project)) (below : place ≠ []) :
    (clean setting invocation disk).disk.node? place =
      if Clean.Takes disk (Clean.targets project) place then none else disk.node? place := by
  rw [disk_clean opened, real]
  cases swept : Clean.sweep project false (Clean.targets project) disk with
  | mk result after =>
      cases result with
      | error cause =>
          rw [clean, opened] at success
          simp [real, swept] at success
      | ok removals => exact Clean.sweep_exact rooted steady swept below

/-- The places that a project is made from: those of its configuration file, its schema files and its sources. -/
def Clean.ByHand (project : Project) (invocation : Invocation) (disk : Disk) (place : Place) : Prop :=
  place = placeOf (ConfigFile.locate project.workingDir invocation.config) ∨
  (∃ path ∈ project.config.schema, place = placeOf (project.workingDir.join path)) ∨
  ∃ sources, Discovery.sources disk project = .ok sources ∧
    ∃ source ∈ sources, place = placeOf (project.workingDir.join ⟨source⟩)

/-- Cleaning takes away what a target names and what stands below it, and nothing else. Where the targets are
steady, exactly that is gone after a success, so what the project is made from stays exactly when nothing of
it stands at a target or below. -/
theorem clean_takes (rooted : disk.Rooted) :
    (∀ place, (clean setting invocation disk).disk.node? place ≠ disk.node? place →
      (clean setting invocation disk).disk.node? place = none ∧ invocation.dryRun = false ∧
      ∃ project, openProject setting disk invocation = .ok project ∧
        Clean.Names disk (Clean.targets project) place) ∧
    ∀ project, openProject setting disk invocation = .ok project → invocation.dryRun = false →
      (clean setting invocation disk).failure = none → Clean.Steady disk (Clean.targets project) →
      (∀ place, place ≠ [] → (clean setting invocation disk).disk.node? place =
        if Clean.Takes disk (Clean.targets project) place then none else disk.node? place) ∧
      ((∀ place, Clean.ByHand project invocation disk place →
          (clean setting invocation disk).disk.node? place = disk.node? place) ↔
        ∀ place, Clean.ByHand project invocation disk place → place ≠ [] → disk.node? place ≠ none →
          ¬ Clean.Takes disk (Clean.targets project) place) := by
  constructor
  · intro place changed
    cases opened : openProject setting disk invocation with
    | error failure => exact absurd (by rw [clean, opened]) changed
    | ok project =>
        rw [disk_clean opened] at changed ⊢
        obtain ⟨shrinks, named⟩ := Clean.sweep_cases rooted project invocation.dryRun (Clean.targets project)
        obtain ⟨real, names⟩ := named place changed
        exact ⟨(shrinks place).resolve_left changed, real, project, rfl, names⟩
  · intro project opened real success steady
    have exact_ := fun place (below : place ≠ []) => clean_exact rooted opened real success steady below
    refine ⟨exact_, fun kept place byHand below stands taken => ?_, fun spared place byHand => ?_⟩
    · rw [← kept place byHand, exact_ place below, if_pos taken] at stands
      exact stands rfl
    · by_cases below : place = []
      · rw [below, Disk.node?_root, Disk.node?_root]
      · rw [exact_ place below]
        by_cases stands : disk.node? place = none
        · rw [stands, ite_self]
        · rw [if_neg (spared place byHand below stands)]

/-- The root as the project directory. -/
def rootSetting : Setting := ⟨⟨"/"⟩, fun _ => none, fun _ _ => .error .notFound⟩

/-- The call of the command without options. -/
def plainClean : Invocation := ⟨.clean, none, none, false, false, [], none, false, false, false⟩

/-- A text that could be a fingerprint. -/
def zeroHash : String := String.ofList (List.replicate 64 '0')

/-- A disk with a source and what belongs to it. -/
def generatedDisk : Disk :=
  ⟨[(["gqlweave.toml"], .file "gql_dts_entrypoint='d/i'\ncache_dir='c'\ntypes_root_dir='t'".toUTF8),
    (["a.ts"], .file "".toUTF8), (["c"], .directory), (["c", "literals.json"], .file "".toUTF8),
    (["c", "t"], .directory), (["c", "t", "a.ts-" ++ zeroHash ++ ".tsx"], .file "".toUTF8), (["d"], .directory),
    (["d", "i"], .file "".toUTF8), (["d", "t"], .directory),
    (["d", "t", "a.ts-" ++ zeroHash ++ ".d.ts"], .file "".toUTF8)]⟩

theorem generatedDisk_rooted : generatedDisk.Rooted :=
  Disk.rooted_of_entries (by decide)

theorem generatedDisk_cleaned :
    (openProject rootSetting generatedDisk plainClean).toOption.map Clean.targets =
        some [⟨"/c"⟩, ⟨"/d/t"⟩, ⟨"/d/i"⟩] ∧
      (clean rootSetting plainClean generatedDisk).failure = none := by
  decide +kernel

theorem generatedDisk_steady : Clean.Steady generatedDisk [⟨"/c"⟩, ⟨"/d/t"⟩, ⟨"/d/i"⟩] :=
  .of_level (fun target _ => Disk.clear_of_noLink (Disk.noLink_of_entries (by decide)) []
    (Disk.pathNames target.text)) (by decide)

theorem clean_takes_generated :
    (∀ place ∈ [["gqlweave.toml"], ["a.ts"], ["d"]],
      (clean rootSetting plainClean generatedDisk).disk.node? place = generatedDisk.node? place) ∧
    ∀ place ∈ [["c"], ["c", "t", "a.ts-" ++ zeroHash ++ ".tsx"], ["d", "i"], ["d", "t"]],
      (clean rootSetting plainClean generatedDisk).disk.node? place = none := by
  obtain ⟨targets, success⟩ := generatedDisk_cleaned
  cases opened : openProject rootSetting generatedDisk plainClean with
  | error failure => simp [opened, Except.toOption] at targets
  | ok project =>
      simp only [opened, Except.toOption, Option.map_some, Option.some.injEq] at targets
      have gone := ((clean_takes generatedDisk_rooted).2 project opened rfl success
        (targets ▸ generatedDisk_steady)).1
      rw [targets] at gone
      refine ⟨fun place member => ?_, fun place member => ?_⟩
      · rw [gone place, if_neg]
        · revert place
          decide +kernel
        · revert place
          decide +kernel
      · rw [gone place, if_pos]
        · revert place
          decide +kernel
        · revert place
          decide +kernel

/-- A disk with a source in the directory that is the root segment of the declarations. -/
def sourceDisk : Disk :=
  ⟨[(["gqlweave.toml"], .file "gql_dts_entrypoint='i.d.ts'\ncache_dir='c'\ntypes_root_dir='src'".toUTF8),
    (["src"], .directory), (["src", "a.ts"], .file "".toUTF8)]⟩

/-- When the entrypoint stands in the project directory and the root segment is the name of a directory of
sources, cleaning takes the sources away. -/
theorem clean_takes_sources :
    ∃ project, openProject rootSetting sourceDisk plainClean = .ok project ∧
      project.config.validate = .ok () ∧ Discovery.sources sourceDisk project = .ok ["src/a.ts"] ∧
      sourceDisk.node? (placeOf (project.workingDir.join ⟨"src/a.ts"⟩)) = some (.file "".toUTF8) ∧
      (clean rootSetting plainClean sourceDisk).disk.node? (placeOf (project.workingDir.join ⟨"src/a.ts"⟩)) =
        none := by
  have facts : (openProject rootSetting sourceDisk plainClean).toOption.any (fun project => decide
      (project.config.validate = .ok () ∧ Discovery.sources sourceDisk project = .ok ["src/a.ts"] ∧
        sourceDisk.node? (placeOf (project.workingDir.join ⟨"src/a.ts"⟩)) = some (.file "".toUTF8) ∧
        (clean rootSetting plainClean sourceDisk).disk.node?
          (placeOf (project.workingDir.join ⟨"src/a.ts"⟩)) = none)) = true := by decide +kernel
  cases opened : openProject rootSetting sourceDisk plainClean with
  | error failure => simp [opened, Except.toOption] at facts
  | ok project =>
      rw [opened, Except.toOption, Option.any_some, decide_eq_true_iff] at facts
      exact ⟨project, rfl, facts⟩

end TypedLiterals.CommandLine
