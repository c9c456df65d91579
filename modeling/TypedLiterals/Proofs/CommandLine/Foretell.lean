import TypedLiterals.Proofs.CommandLine.Clean
import TypedLiterals.Proofs.Disk.Erasure

/-!
What a dry cleaning foretells.

A dry cleaning looks at every target on the disk as it is, a real one at what the earlier targets left. So
they tell the same exactly when each target is left alone by the earlier ones. The sizes told by a real
cleaning add up to the bytes that it took away, unless a target is a link to bytes, which stay.
-/

namespace TypedLiterals.CommandLine

open Disk (Place placeOf way)

variable {project : Project} {disk after : Disk} {target : Path} {targets rest : List Path} {base : Place}
  {removals : List Removal} {setting : Setting} {invocation : Invocation}

namespace Clean

/-- What a dry sweep tells. -/
def foretold (project : Project) (targets : List Path) (disk : Disk) : List Removal :=
  (targets.filter disk.pathExists).map fun target => ⟨shownPath project target, disk.sizeOf target⟩

theorem foretold_of_exists (found : disk.pathExists target = true) :
    foretold project (target :: rest) disk =
      ⟨shownPath project target, disk.sizeOf target⟩ :: foretold project rest disk := by
  rw [foretold, List.filter_cons_of_pos found, List.map_cons, foretold]

theorem foretold_of_missing (missing : ¬ disk.pathExists target = true) :
    foretold project (target :: rest) disk = foretold project rest disk := by
  rw [foretold, List.filter_cons_of_neg missing, foretold]

theorem sweep_dry (project : Project) (targets : List Path) (disk : Disk) :
    sweep project true targets disk = (.ok (foretold project targets disk), disk) := by
  induction targets with
  | nil => rfl
  | cons target rest ih =>
      by_cases found : disk.pathExists target = true
      · simp [sweep, found, ih, foretold_of_exists, Except.map]
      · simp [sweep, found, ih, foretold_of_missing]

/-- A real sweep takes away the tree at a target that exists and goes on without it. -/
theorem sweep_real (rooted : disk.Rooted) (found : disk.pathExists target = true)
    (swept : sweep project false (target :: rest) disk = (.ok removals, after)) :
    ∃ base later, disk.locate false target = .ok (.present base) ∧
      sweep project false rest (disk.eraseTree base) = (.ok later, after) ∧
      removals = ⟨shownPath project target, disk.sizeOf target⟩ :: later := by
  rw [sweep, if_pos found] at swept
  cases removed : disk.removeAny target with
  | mk outcome middle =>
      cases outcome with
      | error fault => simp [removed] at swept
      | ok _ =>
          obtain ⟨base, located, rfl⟩ := Disk.removeAny_eq_ok rooted removed
          cases result : sweep project false rest (disk.eraseTree base) with
          | mk told last =>
              cases told with
              | error cause => simp [removed, result, Except.map] at swept
              | ok later =>
                  simp only [removed, result, Except.map, Bool.false_eq_true, if_false, Prod.mk.injEq,
                    Except.ok.injEq] at swept
                  exact ⟨base, later, located, by rw [result, swept.2], swept.1.symm⟩

theorem sweep_missing (missing : ¬ disk.pathExists target = true)
    (swept : sweep project false (target :: rest) disk = (.ok removals, after)) :
    sweep project false rest disk = (.ok removals, after) := by
  rwa [sweep, if_neg missing] at swept

/-! ## Targets that are left alone -/

/-- Whether each target that exists is left alone when an earlier one is taken away. -/
def Untouched (disk : Disk) (targets : List Path) : Prop :=
  targets.Pairwise fun first later => ∀ base, disk.pathExists first = true →
    disk.locate false first = .ok (.present base) → disk.pathExists later = true → disk.Intact base later

theorem untouched_cons (found : disk.pathExists target = true)
    (located : disk.locate false target = .ok (.present base)) :
    Untouched disk (target :: rest) ↔
      (∀ other ∈ rest, disk.pathExists other = true → disk.Intact base other) ∧ Untouched disk rest := by
  refine List.pairwise_cons.trans (and_congr_left fun _ => ⟨fun first other member present => ?_, ?_⟩)
  · exact first other member base found located present
  · intro intact other member spot _ led present
    cases located.symm.trans led
    exact intact other member present

theorem untouched_cons_of_missing (missing : ¬ disk.pathExists target = true) :
    Untouched disk (target :: rest) ↔ Untouched disk rest :=
  List.pairwise_cons.trans (and_iff_right fun _ _ _ found => absurd found missing)

/-- One more than the bytes that a target leads to, or nothing when it does not exist. -/
def weight (disk : Disk) (target : Path) : Nat :=
  if disk.pathExists target then disk.sizeOf target + 1 else 0

theorem weight_eraseTree_le (disk : Disk) (base : Place) (target : Path) :
    weight (disk.eraseTree base) target ≤ weight disk target := by
  unfold weight
  split
  · next survives =>
    have size := Disk.sizeOf_eraseTree_le survives
    rw [if_pos (Disk.pathExists_of_eraseTree survives)]
    omega
  · exact Nat.zero_le _

theorem intact_iff_weight (found : disk.pathExists target = true) :
    disk.Intact base target ↔ weight (disk.eraseTree base) target = weight disk target := by
  unfold weight Disk.Intact
  rw [if_pos found]
  split
  · next survives => simp [survives]
  · next gone => simp [gone]

theorem sum_foretold (project : Project) (targets : List Path) (disk : Disk) :
    ((foretold project targets disk).map fun removal => removal.size + 1).sum =
      (targets.map (weight disk)).sum := by
  induction targets with
  | nil => rfl
  | cons target rest ih =>
      rw [List.map_cons, List.sum_cons, ← ih]
      by_cases found : disk.pathExists target = true
      · simp [foretold_of_exists found, weight, found]
      · simp [foretold_of_missing found, weight, found]

theorem sum_weight_eraseTree_le (disk : Disk) (base : Place) (targets : List Path) :
    (targets.map (weight (disk.eraseTree base))).sum ≤ (targets.map (weight disk)).sum :=
  List.sum_le_sum fun target _ => weight_eraseTree_le disk base target

/-- A real sweep tells no more than the dry one. -/
theorem sum_sweep_le (rooted : disk.Rooted)
    (swept : sweep project false targets disk = (.ok removals, after)) :
    (removals.map fun removal => removal.size + 1).sum ≤ (targets.map (weight disk)).sum := by
  induction targets generalizing disk removals with
  | nil =>
      cases swept
      rfl
  | cons target rest ih =>
      rw [List.map_cons, List.sum_cons, weight]
      by_cases found : disk.pathExists target = true
      · obtain ⟨base, later, _, goesOn, rfl⟩ := sweep_real rooted found swept
        have tail := ih (rooted.eraseTree base) goesOn
        have less := sum_weight_eraseTree_le disk base rest
        rw [if_pos found, List.map_cons, List.sum_cons]
        exact Nat.add_le_add_left (tail.trans less) _
      · have tail := ih rooted (sweep_missing found swept)
        omega

theorem foretold_congr (intact : ∀ target ∈ targets, disk.pathExists target = true → disk.Intact base target) :
    foretold project targets (disk.eraseTree base) = foretold project targets disk := by
  have same : ∀ target ∈ targets, (disk.eraseTree base).pathExists target = disk.pathExists target := by
    intro target member
    rw [Bool.eq_iff_iff]
    exact ⟨Disk.pathExists_of_eraseTree, fun found => (intact target member found).1⟩
  unfold foretold
  rw [List.filter_congr same]
  refine List.map_congr_left fun target member => ?_
  obtain ⟨listed, found⟩ := List.mem_filter.mp member
  rw [(intact target listed found).2]

/-- What is left alone by one target is left alone by others with or without it. -/
theorem untouched_eraseTree (intact : ∀ target ∈ targets, disk.pathExists target = true → disk.Intact base target) :
    Untouched (disk.eraseTree base) targets ↔ Untouched disk targets := by
  constructor
  · refine List.Pairwise.imp_of_mem fun {first later} listed member apart other found located present => ?_
    obtain ⟨place, node, now, _⟩ := Disk.exists_locate_of_eraseTree (intact first listed found).1
    obtain ⟨spot, also⟩ := Disk.locate_unfollowed now
    have same := Disk.locate_of_shrinks (Disk.shrinks_eraseTree disk base) also
    cases located.symm.trans same
    have left := intact later member present
    exact left.of_eraseTree (apart other (intact first listed found).1 also left.1)
  · refine List.Pairwise.imp_of_mem fun {first later} listed member apart other found located present => ?_
    have before := Disk.pathExists_of_eraseTree present
    exact (intact later member before).meet (apart other (Disk.pathExists_of_eraseTree found)
      (Disk.locate_of_shrinks (Disk.shrinks_eraseTree disk base) located) before)

/-- When a real sweep tells all that a dry one would tell before a removal, the removal touches none of it. -/
theorem intact_of_foretold (rooted : disk.Rooted)
    (swept : sweep project false targets (disk.eraseTree base) = (.ok (foretold project targets disk), after)) :
    ∀ target ∈ targets, disk.pathExists target = true → disk.Intact base target := by
  intro target member found
  rw [intact_iff_weight found]
  refine Nat.le_antisymm (weight_eraseTree_le disk base target) (Nat.le_of_not_lt fun less => ?_)
  -- What one target loses no other one makes up for.
  have fewer : (targets.map (weight (disk.eraseTree base))).sum < (targets.map (weight disk)).sum :=
    List.sum_lt_sum _ _ (fun other _ => weight_eraseTree_le disk base other) ⟨target, member, less⟩
  have most := sum_sweep_le (rooted.eraseTree base) swept
  rw [sum_foretold] at most
  omega

/-- The dry sweep tells what the real one tells exactly when no target is touched by an earlier one. -/
theorem foretold_eq_iff (rooted : disk.Rooted)
    (swept : sweep project false targets disk = (.ok removals, after)) :
    foretold project targets disk = removals ↔ Untouched disk targets := by
  induction targets generalizing disk removals with
  | nil =>
      cases swept
      exact ⟨fun _ => .nil, fun _ => rfl⟩
  | cons target rest ih =>
      by_cases found : disk.pathExists target = true
      · obtain ⟨base, later, located, goesOn, rfl⟩ := sweep_real rooted found swept
        have tail := ih (rooted.eraseTree base) goesOn
        rw [foretold_of_exists found, List.cons.injEq, and_iff_right rfl, untouched_cons found located]
        constructor
        · rintro rfl
          have intact := intact_of_foretold rooted goesOn
          rw [foretold_congr intact, untouched_eraseTree intact] at tail
          exact ⟨intact, tail.mp rfl⟩
        · rintro ⟨intact, others⟩
          rwa [← foretold_congr intact, tail, untouched_eraseTree intact]
      · rw [foretold_of_missing found, ih rooted (sweep_missing found swept), untouched_cons_of_missing found]

/-- Whether a later path passes no place at or below that of an earlier one, and what it leads to holds no byte
of what the earlier one leads to. -/
def Apart (disk : Disk) (first later : Path) : Prop :=
  (∀ passed ∈ way (Disk.pathNames later.text), passed ≠ [] → ¬ placeOf first <+: passed) ∧
    (placeOf later <+: placeOf first → disk.sizeOf first = 0)

instance (disk : Disk) (first later : Path) : Decidable (Apart disk first later) :=
  inferInstanceAs (Decidable ((∀ passed ∈ way (Disk.pathNames later.text), passed ≠ [] →
    ¬ placeOf first <+: passed) ∧ (placeOf later <+: placeOf first → disk.sizeOf first = 0)))

theorem untouched_iff (direct : ∀ target ∈ targets, disk.Direct target) :
    Untouched disk targets ↔
      targets.Pairwise fun first later =>
        disk.pathExists first = true → disk.pathExists later = true → Apart disk first later := by
  refine List.Pairwise.iff_of_mem fun {first later} listed member => ?_
  have atPlace {base : Place} (located : disk.locate false first = .ok (.present base)) : base = placeOf first :=
    (Disk.locate_eq_ok located).1.place_eq (direct first listed)
  have sizeAt (found : disk.pathExists first = true) : disk.sizeOf first = disk.bytesBelow (placeOf first) := by
    obtain ⟨place, node, located, _⟩ := Disk.pathExists_iff.mp found
    have ends := (Disk.locate_eq_ok located).1.place_eq (direct first listed)
    rw [Disk.sizeOf_of_locate located]
    exact congrArg disk.bytesBelow ends
  constructor
  · intro intact found present
    obtain ⟨place, node, located, _⟩ := Disk.pathExists_iff.mp found
    obtain ⟨base, unfollowed⟩ := Disk.locate_unfollowed located
    have left := (Disk.intact_iff (direct later member) present).mp (intact base found unfollowed present)
    rw [atPlace unfollowed] at left
    rwa [Apart, sizeAt found]
  · intro apart base found located present
    rw [atPlace located, Disk.intact_iff (direct later member) present, ← sizeAt found]
    exact apart found present

/-! ## Bytes -/

/-- Whether no target that exists is a link to bytes. -/
def Solid (disk : Disk) (targets : List Path) : Prop :=
  ∀ target ∈ targets, disk.pathExists target = true → disk.EndsInLink target → disk.sizeOf target = 0

theorem Solid.of_direct (direct : ∀ target ∈ targets, disk.Direct target) : Solid disk targets :=
  fun target member _ link => absurd link (Disk.Direct.not_endsInLink (direct target member))

theorem Solid.eraseTree (solid : Solid disk targets) (base : Place) : Solid (disk.eraseTree base) targets := by
  intro target member found link
  have size := solid target member (Disk.pathExists_of_eraseTree found)
    (link.of_shrinks (Disk.shrinks_eraseTree disk base))
  have less := Disk.sizeOf_eraseTree_le found
  omega

/-- No byte is taken away untold. -/
theorem sweep_bytes_le (rooted : disk.Rooted) (once : disk.Once)
    (swept : sweep project false targets disk = (.ok removals, after)) :
    disk.bytesBelow [] ≤ (removals.map Removal.size).sum + after.bytesBelow [] := by
  induction targets generalizing disk removals with
  | nil =>
      cases swept
      exact Nat.le_add_left _ _
  | cons target rest ih =>
      by_cases found : disk.pathExists target = true
      · obtain ⟨base, later, located, goesOn, rfl⟩ := sweep_real rooted found swept
        have step := Disk.bytesBelow_le_removed rooted once located
        have tail := ih (rooted.eraseTree base) (once.eraseTree base) goesOn
        simp only [List.map_cons, List.sum_cons]
        omega
      · exact ih rooted once (sweep_missing found swept)

theorem sweep_bytes_eq (rooted : disk.Rooted) (once : disk.Once) (solid : Solid disk targets)
    (swept : sweep project false targets disk = (.ok removals, after)) :
    (removals.map Removal.size).sum + after.bytesBelow [] = disk.bytesBelow [] := by
  induction targets generalizing disk removals with
  | nil =>
      cases swept
      exact Nat.zero_add _
  | cons target rest ih =>
      obtain ⟨head, others⟩ := List.forall_mem_cons.mp solid
      by_cases found : disk.pathExists target = true
      · obtain ⟨base, later, located, goesOn, rfl⟩ := sweep_real rooted found swept
        have step := (Disk.bytesBelow_removed_iff rooted once located).mpr (head found)
        have tail := ih (rooted.eraseTree base) (once.eraseTree base) (Solid.eraseTree others base) goesOn
        simp only [List.map_cons, List.sum_cons]
        omega
      · exact ih rooted once others (sweep_missing found swept)

/-- A link to bytes that is not touched tells bytes that stay. -/
theorem solid_of_bytes (rooted : disk.Rooted) (once : disk.Once) (untouched : Untouched disk targets)
    (swept : sweep project false targets disk = (.ok removals, after))
    (whole : (removals.map Removal.size).sum + after.bytesBelow [] = disk.bytesBelow []) : Solid disk targets := by
  induction targets generalizing disk removals with
  | nil => exact List.forall_mem_nil _
  | cons target rest ih =>
      by_cases found : disk.pathExists target = true
      · obtain ⟨base, later, located, goesOn, rfl⟩ := sweep_real rooted found swept
        obtain ⟨intact, others⟩ := (untouched_cons found located).mp untouched
        rw [← untouched_eraseTree intact] at others
        simp only [List.map_cons, List.sum_cons] at whole
        -- Neither the step nor the rest tells too little, so neither tells too much.
        have step := Disk.bytesBelow_le_removed rooted once located
        have tail := sweep_bytes_le (rooted.eraseTree base) (once.eraseTree base) goesOn
        refine List.forall_mem_cons.mpr ⟨fun _ => ?_, fun other member present link => ?_⟩
        · exact (Disk.bytesBelow_removed_iff rooted once located).mp (by omega)
        · have left := intact other member present
          rw [← left.2]
          exact ih (rooted.eraseTree base) (once.eraseTree base) others goesOn (by omega) other member left.1
            (link.of_exists left.1)
      · rw [untouched_cons_of_missing found] at untouched
        exact List.forall_mem_cons.mpr ⟨fun present => absurd present found,
          ih rooted once untouched (sweep_missing found swept) whole⟩

end Clean

theorem clean_of_sweep (opened : openProject setting disk invocation = .ok project)
    (swept : Clean.sweep project invocation.dryRun (Clean.targets project) disk = (.ok removals, after)) :
    (clean setting invocation disk).disk = after ∧ (clean setting invocation disk).failure = none ∧
      (invocation.json = true →
        (clean setting invocation disk).stdout = [(Clean.toJson invocation.dryRun removals).pretty]) := by
  rw [clean, opened]
  simp only [swept]
  cases invocation.json with
  | true => exact ⟨rfl, rfl, fun _ => rfl⟩
  | false => exact ⟨rfl, rfl, fun json => by cases json⟩

theorem exists_sweep (opened : openProject setting disk invocation = .ok project)
    (success : (clean setting invocation disk).failure = none) :
    ∃ removals after,
      Clean.sweep project invocation.dryRun (Clean.targets project) disk = (.ok removals, after) := by
  cases swept : Clean.sweep project invocation.dryRun (Clean.targets project) disk with
  | mk result after =>
      cases result with
      | error cause => simp [clean, opened, swept] at success
      | ok removals => exact ⟨removals, after, rfl⟩

/-- A dry cleaning changes nothing and ends well. When the real one ends well too, both tell the same exactly
when each target is left alone by the earlier ones. No byte is taken away untold, and each is told once when no
target is a link to bytes, which is also needed when both tell the same. -/
theorem clean_foretold_iff (rooted : disk.Rooted) (once : disk.Once)
    (opened : openProject setting disk invocation = .ok project)
    (success : (clean setting { invocation with dryRun := false } disk).failure = none) :
    let dry := clean setting { invocation with dryRun := true } disk
    let real := clean setting { invocation with dryRun := false } disk
    let targets := Clean.targets project
    dry.disk = disk ∧ dry.failure = none ∧ ∃ told removals,
      Clean.sweep project true targets disk = (.ok told, disk) ∧
      Clean.sweep project false targets disk = (.ok removals, real.disk) ∧
      (invocation.json = true → dry.stdout = [(Clean.toJson true told).pretty] ∧
        real.stdout = [(Clean.toJson false removals).pretty]) ∧
      (told = removals ↔ Clean.Untouched disk targets) ∧
      ((∀ target ∈ targets, disk.Direct target) →
        (Clean.Untouched disk targets ↔ targets.Pairwise fun first later =>
          disk.pathExists first = true → disk.pathExists later = true → Clean.Apart disk first later)) ∧
      disk.bytesBelow [] ≤ (removals.map Removal.size).sum + real.disk.bytesBelow [] ∧
      (Clean.Solid disk targets →
        (removals.map Removal.size).sum + real.disk.bytesBelow [] = disk.bytesBelow []) ∧
      (told = removals ∧ (removals.map Removal.size).sum + real.disk.bytesBelow [] = disk.bytesBelow [] ↔
        Clean.Untouched disk targets ∧ Clean.Solid disk targets) := by
  intro dry real targets
  have dryOpened : openProject setting disk { invocation with dryRun := true } = .ok project := opened
  have realOpened : openProject setting disk { invocation with dryRun := false } = .ok project := opened
  have told := Clean.sweep_dry project targets disk
  obtain ⟨dryDisk, dryEnds, dryTells⟩ := clean_of_sweep dryOpened told
  obtain ⟨removals, after, swept⟩ := exists_sweep realOpened success
  obtain ⟨realDisk, _, realTells⟩ := clean_of_sweep realOpened swept
  have same : Clean.foretold project targets disk = removals ↔ Clean.Untouched disk targets :=
    Clean.foretold_eq_iff rooted swept
  change real.disk = after at realDisk
  rw [realDisk]
  refine ⟨dryDisk, dryEnds, _, removals, told, swept, fun json => ⟨dryTells json, realTells json⟩, same,
    Clean.untouched_iff, Clean.sweep_bytes_le rooted once swept,
    fun solid => Clean.sweep_bytes_eq rooted once solid swept, ?_⟩
  rw [same]
  exact and_congr_right fun untouched => ⟨Clean.solid_of_bytes rooted once untouched swept,
    fun solid => Clean.sweep_bytes_eq rooted once solid swept⟩

/-- A disk with a cache and an entrypoint beside each other. -/
def storedDisk : Disk :=
  ⟨[(["gqlweave.toml"], .file "gql_dts_entrypoint='d/i'\ncache_dir='c'".toUTF8), (["c"], .directory),
    (["c", "literals.json"], .file "{}".toUTF8), (["d"], .directory), (["d", "i"], .file "abc".toUTF8)]⟩

theorem clean_foretold_stored :
    ∃ project, openProject rootSetting storedDisk plainClean = .ok project ∧
      Clean.sweep project true (Clean.targets project) storedDisk = (.ok [⟨"c", 2⟩, ⟨"d/i", 3⟩], storedDisk) ∧
      ∃ after, Clean.sweep project false (Clean.targets project) storedDisk = (.ok [⟨"c", 2⟩, ⟨"d/i", 3⟩], after) ∧
        5 + after.bytesBelow [] = storedDisk.bytesBelow [] := by
  have facts : (openProject rootSetting storedDisk plainClean).toOption.any (fun project => decide
      (Clean.targets project = [⟨"/c"⟩, ⟨"/d/proj-root"⟩, ⟨"/d/i"⟩] ∧
        Clean.foretold project (Clean.targets project) storedDisk = [⟨"c", 2⟩, ⟨"d/i", 3⟩])) = true ∧
      (clean rootSetting { plainClean with dryRun := false } storedDisk).failure = none := by decide +kernel
  obtain ⟨known, success⟩ := facts
  cases opened : openProject rootSetting storedDisk plainClean with
  | error failure => simp [opened, Except.toOption] at known
  | ok project =>
      rw [opened, Except.toOption, Option.any_some, decide_eq_true_iff] at known
      obtain ⟨targets, tells⟩ := known
      have rooted : storedDisk.Rooted := Disk.rooted_of_entries (by decide)
      obtain ⟨_, _, told, removals, dry, real, _, same, places, _, bytes, _⟩ :=
        clean_foretold_iff rooted (by decide) opened success
      have direct : ∀ target ∈ Clean.targets project, storedDisk.Direct target := fun target _ =>
        Disk.clear_of_noLink (Disk.noLink_of_entries (by decide)) [] (Disk.pathNames target.text)
      have apart : Clean.Untouched storedDisk (Clean.targets project) := by
        rw [places direct, targets]
        decide +kernel
      have total := bytes (.of_direct direct)
      rw [← same.mpr apart] at real total
      generalize (clean rootSetting { plainClean with dryRun := false } storedDisk).disk = after at real total
      have whole : [⟨"c", 2⟩, ⟨"d/i", 3⟩] = told := by
        rw [Clean.sweep_dry, tells] at dry
        exact Except.ok.inj (congrArg Prod.fst dry)
      rw [← whole] at dry real total
      exact ⟨project, rfl, dry, after, real, total⟩

/-- A disk on which the entrypoint stands in the cache directory. -/
def nestedDisk : Disk :=
  ⟨[(["gqlweave.toml"], .file "gql_dts_entrypoint='c/i'\ncache_dir='c'".toUTF8), (["c"], .directory),
    (["c", "i"], .file "abc".toUTF8)]⟩

/-- When the entrypoint stands in the cache directory, a dry cleaning tells of it twice. -/
theorem clean_foretold_twice :
    ∃ project, openProject rootSetting nestedDisk plainClean = .ok project ∧ project.config.validate = .ok () ∧
      (clean rootSetting plainClean nestedDisk).failure = none ∧
      (Clean.sweep project true (Clean.targets project) nestedDisk).1 = .ok [⟨"c", 3⟩, ⟨"c/i", 3⟩] ∧
      (Clean.sweep project false (Clean.targets project) nestedDisk).1 = .ok [⟨"c", 3⟩] := by
  have facts : (openProject rootSetting nestedDisk plainClean).toOption.any (fun project => decide
      (project.config.validate = .ok () ∧ (clean rootSetting plainClean nestedDisk).failure = none ∧
        (Clean.sweep project true (Clean.targets project) nestedDisk).1 = .ok [⟨"c", 3⟩, ⟨"c/i", 3⟩] ∧
        (Clean.sweep project false (Clean.targets project) nestedDisk).1 = .ok [⟨"c", 3⟩])) = true := by decide +kernel
  cases opened : openProject rootSetting nestedDisk plainClean with
  | error failure => simp [opened, Except.toOption] at facts
  | ok project =>
      rw [opened, Except.toOption, Option.any_some, decide_eq_true_iff] at facts
      exact ⟨project, rfl, facts⟩

end TypedLiterals.CommandLine
