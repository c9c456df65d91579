import TypedLiterals.Proofs.CommandLine.Clean
import TypedLiterals.Proofs.Containment
import TypedLiterals.Proofs.Generation.Again

/-!
Cleaning undoes generating.

Generating spells the directory of declarations and the root segment canonically, and cleaning joins them as
they are. Without backslashes both name one directory, and then cleaning takes away all that generating has
written, whichever runs have written it.
-/

namespace TypedLiterals

variable {project : Project} {disk : Disk} {path : Path} {source hash text : String}

/-! ## Directories -/

theorem Path.isEmpty_of_absolute (absolute : path.isAbsolute = true) : path.text.isEmpty = false := by
  rw [← Bool.not_eq_true]
  intro empty
  have none : path.text = "" := by simpa using empty
  rw [isAbsolute, none] at absolute
  cases absolute

theorem Path.isEmpty_join {base : Path} (present : base.text.isEmpty = false) (rel : Path) :
    (base.join rel).text.isEmpty = false := by
  rw [join]
  split
  · next absolute => exact isEmpty_of_absolute absolute
  · rw [← Bool.not_eq_true] at present ⊢
    split <;> simp_all

theorem Path.relative_of_staysInside (inside : Config.staysInside path = true) : path.isAbsolute = false := by
  rw [← Bool.not_eq_true]
  intro absolute
  obtain ⟨rest, slash⟩ : ∃ rest, path.text.toList = '/' :: rest := by
    cases letters : path.text.toList with
    | nil => simp [isAbsolute, letters] at absolute
    | cons first rest => exact ⟨rest, by simpa [isAbsolute, letters] using absolute⟩
  have listed : Component.root ∈ path.components := by simp [components_eq, slash, splitHead, headComponent]
  rw [Config.staysInside, Bool.and_eq_true, List.all_eq_true] at inside
  exact absurd (inside.2 _ listed) (by decide)

namespace Project

open Location

theorem resolve_rootNames (plain : '\\' ∉ project.config.typesRootDir.toList) (place : Disk.Place) :
    Disk.resolve place project.rootNames = Disk.resolve place (Disk.pathNames project.config.typesRootDir) := by
  rw [← Path.resolve_slashed plain, Path.slashed,
    Path.pathNames_joinSlashes fun _ => Path.isPiece_of_mem_slashPieces, rootNames]

/-- A module stands below the cache directory. -/
theorem module_below (accepted : project.config.validate = .ok ())
    (plain : '\\' ∉ project.config.typesRootDir.toList) (descends : Path.Descends source)
    (digest : Digest.IsDigest hash) :
    Disk.Below (Disk.placeOf project.cacheDir) (Disk.placeOf (project.location source hash).module) := by
  have level : ".." ∉ project.rootNames := by
    intro up
    obtain ⟨piece, member, same⟩ := List.mem_map.mp up
    refine level_of_validate accepted plain ?_
    have dots : piece = ['.', '.'] := String.ofList_injective same
    rwa [dots] at member
  have file : Disk.placeOf (project.location source hash).module =
      Disk.resolve (Disk.placeOf project.cacheDir) project.rootNames ++ fileNames source hash moduleSuffix := by
    rw [Disk.placeOf, pathNames_module project descends.1 digest, moduleNames, ← List.append_assoc,
      resolve_fileNames _ _ _ descends digest, Disk.resolve_append, Disk.placeOf]
  rw [file]
  exact Disk.below_append (Disk.prefix_resolve level _) fileNames_ne_nil

/-- A declaration stands below the directory that the root segment names in the declaration directory. -/
theorem declaration_below (accepted : project.config.validate = .ok ())
    (plain : '\\' ∉ project.config.typesRootDir.toList)
    (plainDir : '\\' ∉ project.declarationRelDir.text.toList)
    (relative : project.declarationRelDir.isAbsolute = false) (descends : Path.Descends source)
    (digest : Digest.IsDigest hash) :
    Disk.Below (Disk.placeOf (project.declarationDir.join ⟨project.config.typesRootDir⟩))
      (Disk.placeOf (project.location source hash).declaration) := by
  have base : Disk.placeOf (project.declarationDir.join ⟨project.config.typesRootDir⟩) =
      Disk.resolve (Disk.resolve (Disk.placeOf project.workingDir)
        (Disk.pathNames (Path.slashed project.declarationRelDir.text))) project.rootNames := by
    rw [Disk.placeOf, Path.pathNames_join (Path.relative_of_staysInside (staysInside_of_validate accepted)),
      Disk.resolve_append, ← Disk.placeOf, placeOf_declarationDir plainDir relative, resolve_rootNames plain]
  have file : Disk.placeOf (project.location source hash).declaration =
      Disk.resolve (Disk.resolve (Disk.placeOf project.workingDir)
        (Disk.pathNames (Path.slashed project.declarationRelDir.text))) project.rootNames ++
        fileNames source hash declarationSuffix := by
    rw [Disk.placeOf, pathNames_declaration project descends.1 digest, declarationNames, ← List.append_assoc,
      ← List.append_assoc, resolve_fileNames _ _ _ descends digest, Disk.resolve_append, Disk.resolve_append,
      Disk.placeOf]
  rw [base, file]
  exact Disk.below_append (List.prefix_refl _) fileNames_ne_nil

theorem cache_below (project : Project) :
    Disk.Below (Disk.placeOf project.cacheDir) (Disk.placeOf (Cache.path project)) := by
  have member : Cache.fileName ∈ [Cache.fileName, Cache.fileName ++ ".tmp"] := List.mem_cons_self
  have file : Disk.placeOf (Cache.path project) = Disk.placeOf project.cacheDir ++ [Cache.fileName] := by
    rw [Disk.placeOf, Cache.path, Cache.pathNames_cacheDir_join member,
      Disk.resolve_concat _ (Cache.isPlain_of_mem member), Disk.placeOf]
  rw [file]
  exact Disk.below_append (List.prefix_refl _) (List.cons_ne_nil _ _)

theorem accepted_of_load {dir : Path} {given : Option Path} (loaded : load disk dir given = .ok project) :
    project.config.validate = .ok () ∧ project.workingDir.isAbsolute = true := by
  unfold load at loaded
  cases file : ConfigFile.load disk dir given with
  | error cause => simp [file] at loaded
  | ok found =>
      simp only [file, inDirectory] at loaded
      split at loaded
      · next absolute =>
        cases loaded
        refine ⟨?_, absolute⟩
        unfold ConfigFile.load at file
        dsimp only at file
        split at file
        · cases file
        split at file
        · cases file
        split at file
        · cases file
        next config _ =>
          cases accepted : config.validate with
          | error cause => simp [accepted, Except.map] at file
          | ok _ =>
              simp only [accepted, Except.map, Except.ok.injEq] at file
              rw [← file, accepted]
      · cases loaded

end Project

/-! ## Cleaning -/

namespace CommandLine

open Disk (Place placeOf)

variable {setting : Setting} {invocation : Invocation} {place : Place}

/-- The configuration of a project that was opened was accepted, and its directory is absolute. -/
theorem accepted_of_open (opened : openProject setting disk invocation = .ok project) :
    project.config.validate = .ok () ∧ project.workingDir.isAbsolute = true := by
  unfold openProject at opened
  cases named : projectDir setting disk invocation with
  | error failure => simp [named, bind, Except.bind] at opened
  | ok dir =>
      simp only [named, bind, Except.bind, Attempt.ofProject] at opened
      cases loaded : Project.load disk dir invocation.config with
      | error cause => simp [loaded, Except.mapError] at opened
      | ok found =>
          simp only [loaded, Except.mapError, Except.ok.injEq] at opened
          rw [← opened]
          exact Project.accepted_of_load loaded

theorem clean_below (rooted : disk.Rooted) (opened : openProject setting disk invocation = .ok project)
    (real : invocation.dryRun = false) (success : (clean setting invocation disk).failure = none)
    (steady : Clean.Steady disk (Clean.targets project)) (member : path ∈ Clean.targets project)
    (nonempty : path.text.isEmpty = false) (passes : disk.Passes path) (below : Disk.Below (placeOf path) place) :
    (clean setting invocation disk).disk.node? place = none := by
  have notRoot : place ≠ [] := by
    rintro rfl
    exact below.2 (List.prefix_nil.mp below.1)
  rw [clean_exact rooted opened real success steady notRoot]
  cases stands : disk.node? place with
  | none => rw [ite_self]
  | some node =>
      rw [if_pos ⟨path, member, Disk.pathExists_of_below rooted nonempty passes stands below.1 below.2, below.1⟩]

/-- Once a project was cleaned no artifact of any literal is left, no document of the cache and no entrypoint,
and so nothing of what runs have written. -/
theorem clean_undoes (rooted : disk.Rooted) (opened : openProject setting disk invocation = .ok project)
    (real : invocation.dryRun = false) (success : (clean setting invocation disk).failure = none)
    (steady : Clean.Steady disk (Clean.targets project)) (passes : ∀ path ∈ Clean.targets project, disk.Passes path)
    (plain : '\\' ∉ project.config.typesRootDir.toList)
    (plainDir : '\\' ∉ project.declarationRelDir.text.toList)
    (relative : project.declarationRelDir.isAbsolute = false) :
    (∀ source hash, Path.Descends source → Digest.IsDigest hash →
      ∀ path ∈ (project.location source hash).artifacts,
        (clean setting invocation disk).disk.node? (placeOf path) = none) ∧
    (clean setting invocation disk).disk.node? (placeOf (Cache.path project)) = none ∧
    (disk.isFile project.entrypoint = true →
      (clean setting invocation disk).disk.node? (placeOf project.entrypoint) = none) ∧
    ∀ engine seed options sources before report later, options.dryRun = false →
      (∀ source ∈ sources, Path.Descends source) →
      run project engine seed options sources before = (.ok report, later) →
      ∀ outcome ∈ report.processed, ∀ record ∈ outcome.records, ∀ path ∈ record.location.artifacts,
        (clean setting invocation disk).disk.node? (placeOf path) = none := by
  obtain ⟨accepted, absolute⟩ := accepted_of_open opened
  have present := Path.isEmpty_of_absolute absolute
  have cacheTarget : project.cacheDir ∈ Clean.targets project := by simp [Clean.targets]
  have rootTarget : project.declarationDir.join ⟨project.config.typesRootDir⟩ ∈ Clean.targets project := by
    simp [Clean.targets]
  have entryTarget : project.entrypoint ∈ Clean.targets project := by simp [Clean.targets]
  have underCache := fun place (below : Disk.Below (placeOf project.cacheDir) place) =>
    clean_below rooted opened real success steady cacheTarget (Path.isEmpty_join present _)
      (passes _ cacheTarget) below
  -- A module lies below the cache directory and a declaration below the directory of the declarations, and
  -- both are targets.
  have artifacts : ∀ source hash, Path.Descends source → Digest.IsDigest hash →
      ∀ path ∈ (project.location source hash).artifacts,
        (clean setting invocation disk).disk.node? (placeOf path) = none := by
    intro source hash descends digest path member
    rcases List.mem_pair.mp member with same | same
    · rw [same]
      exact underCache _ (Project.module_below accepted plain descends digest)
    · rw [same]
      exact clean_below rooted opened real success steady rootTarget
        (Path.isEmpty_join (Path.isEmpty_join present _) _) (passes _ rootTarget)
        (Project.declaration_below accepted plain plainDir relative descends digest)
  refine ⟨artifacts, underCache _ (Project.cache_below project), fun file => ?_, ?_⟩
  · obtain ⟨named, place, leads, node, stands, isFile⟩ := Disk.isFile_iff.mp file
    have ends := (steady.direct _ entryTarget).leads_eq leads
    have found : disk.pathExists project.entrypoint = true :=
      Disk.pathExists_iff.mpr ⟨place, node, Disk.locate_of_walks named leads, stands⟩
    have notRoot : placeOf project.entrypoint ≠ [] := by
      rintro root
      rw [ends, root, Disk.node?_root] at stands
      cases stands
      exact Disk.isFile_directory isFile
    rw [clean_exact rooted opened real success steady notRoot,
      if_pos ⟨_, entryTarget, found, List.prefix_refl _⟩]
  · intro engine seed options sources before report later inline descends ran outcome processed record recorded
    have present : sources ≠ [] := by
      rintro rfl
      simp only [run, List.isEmpty_nil, if_true, Prod.mk.injEq, Except.ok.injEq] at ran
      rw [← ran.1] at processed
      cases processed
    obtain ⟨scanned, filled, planned⟩ := Run.planned_of_run present inline ran processed
    rw [planned.1] at recorded
    obtain ⟨occurrence, _, rfl⟩ := List.mem_map.mp recorded
    rw [Run.record_location]
    obtain ⟨source, member, (spelled : _ = outcome.source)⟩ :=
      List.mem_map.mp (Run.mem_slashed_of_mem_filled filled)
    refine artifacts _ _ ?_ (isDigest_fingerprint _ _)
    rw [← spelled, Path.Descends, Path.slashPieces_slashed]
    exact descends source member

theorem clean_undoes_generated :
    ∃ project, openProject rootSetting generatedDisk plainClean = .ok project ∧
      (∀ path ∈ (project.location "a.ts" zeroHash).artifacts, generatedDisk.isFile path = true ∧
        (clean rootSetting plainClean generatedDisk).disk.node? (placeOf path) = none) ∧
      (clean rootSetting plainClean generatedDisk).disk.node? (placeOf project.entrypoint) = none := by
  obtain ⟨targets, success⟩ := generatedDisk_cleaned
  have facts : (openProject rootSetting generatedDisk plainClean).toOption.map (fun project =>
      (project.config.typesRootDir, project.declarationRelDir, project.entrypoint,
        (project.location "a.ts" zeroHash).artifacts.all generatedDisk.isFile)) =
      some ("t", ⟨"d"⟩, ⟨"/d/i"⟩, true) := by decide +kernel
  cases opened : openProject rootSetting generatedDisk plainClean with
  | error failure => simp [opened, Except.toOption] at targets
  | ok project =>
      simp only [opened, Except.toOption, Option.map_some, Option.some.injEq, Prod.mk.injEq] at targets facts
      obtain ⟨root, dir, entrypoint, files⟩ := facts
      have passes : ∀ path ∈ Clean.targets project, generatedDisk.Passes path := by
        intro path member
        refine .of_level ?_
        rw [targets] at member
        revert path
        decide +kernel
      have descends : Path.Descends "a.ts" := by
        unfold Path.Descends
        decide +kernel
      have digest : Digest.IsDigest zeroHash := by
        have letters : zeroHash.toList = List.replicate 64 '0' := String.toList_ofList
        unfold Digest.IsDigest
        rw [letters]
        refine ⟨List.length_replicate, fun character member => ?_⟩
        rw [List.eq_of_mem_replicate member]
        decide
      obtain ⟨artifacts, _, entry, _⟩ := clean_undoes generatedDisk_rooted opened rfl success
        (targets ▸ generatedDisk_steady) passes (by rw [root]; decide) (by rw [dir]; decide)
        (by rw [dir]; decide)
      exact ⟨project, rfl, fun path member => ⟨List.all_eq_true.mp files path member,
        artifacts _ _ descends digest path member⟩, entry (by rw [entrypoint]; decide +kernel)⟩

/-- A project whose root segment is one name for the host, and two when it is split at backslashes. -/
def splitProject : Project :=
  ⟨⟨"/"⟩, { entrypoint := ⟨"d/i"⟩, cacheDir := ⟨"c"⟩, typesRootDir := "a\\b" }, "", Syntax.parse⟩

/-- A disk with the configuration file of the project and a source with one literal. -/
def splitDisk : Disk :=
  ⟨[(["gqlweave.toml"], .file "gql_dts_entrypoint='d/i'\ncache_dir='c'\ntypes_root_dir='a\\b'".toUTF8),
    (["a.ts"], .file Run.smallSource.toUTF8)]⟩

theorem splitRun_outcome :
    let ran := run splitProject blankEngine "" Run.smallOptions ["a.ts"] ⟨splitDisk, []⟩
    let cleaned := clean rootSetting plainClean ran.2.disk
    (openProject rootSetting ran.2.disk plainClean).toOption.map (fun project =>
        (project.config, project.workingDir)) = some (splitProject.config, splitProject.workingDir) ∧
      cleaned.failure = none ∧
      ran.1.toOption.any (fun report => report.failures.isEmpty && report.processed.any fun outcome =>
        outcome.records.any fun record =>
          (cleaned.disk.node? (placeOf record.location.declaration)).isSome) = true := by
  decide +kernel

/-- A declaration below a root segment with a backslash is left. -/
theorem clean_leaves_declaration :
    splitProject.config.validate = .ok () ∧ Path.Descends "a.ts" ∧
    ∃ report later,
      run splitProject blankEngine "" Run.smallOptions ["a.ts"] ⟨splitDisk, []⟩ = (.ok report, later) ∧
      report.failures = [] ∧
      (∃ project, openProject rootSetting later.disk plainClean = .ok project ∧
        project.config = splitProject.config ∧ project.workingDir = splitProject.workingDir) ∧
      (clean rootSetting plainClean later.disk).failure = none ∧
      ∃ outcome ∈ report.processed, ∃ record ∈ outcome.records,
        (clean rootSetting plainClean later.disk).disk.node? (placeOf record.location.declaration) ≠ none := by
  refine ⟨by decide +kernel, by unfold Path.Descends; decide +kernel, ?_⟩
  obtain ⟨configured, success, left⟩ := splitRun_outcome
  cases ran : run splitProject blankEngine "" Run.smallOptions ["a.ts"] ⟨splitDisk, []⟩ with
  | mk result later =>
      rw [ran] at configured success left
      cases result with
      | error cause => cases left
      | ok report =>
          cases opened : openProject rootSetting later.disk plainClean with
          | error failure => simp [opened, Except.toOption] at configured
          | ok project =>
              simp only [opened, Except.toOption, Option.map_some, Option.some.injEq, Prod.mk.injEq] at configured
              simp only [Except.toOption, Option.any_some, Bool.and_eq_true, List.isEmpty_iff, List.any_eq_true,
                Option.isSome_iff_ne_none] at left
              exact ⟨report, later, rfl, left.1, ⟨project, opened, configured⟩, success, left.2⟩

end CommandLine

end TypedLiterals
