import Mathlib.Algebra.Order.BigOperators.Group.List
import TypedLiterals.Proofs.Containment
import TypedLiterals.Proofs.Generation.Again
import TypedLiterals.Proofs.Generation.Stop

/-!
Runs that write sources under a directory of their own.

The path of a source is put behind the directory as it is written. So the new form of a source stands in every
such directory exactly when the path of the source nowhere leads above where it starts. Then it stands in the
directory as the source stands in the project, and the run leaves the sources alone.
-/

namespace TypedLiterals

open Disk (Place placeOf)

/-! ## Ways that lead above their start -/

namespace Disk

variable {names : List String} {name : String} {base inner place : Place}

/-- Whether names lead above a place, when they begin at some depth below it. -/
def climbs : (depth : Nat) → List String → Bool
  | _, [] => false
  | depth, name :: rest =>
    if name = "." then climbs depth rest
    else if name = ".." then depth == 0 || climbs (depth - 1) rest
    else climbs (depth + 1) rest

/-- Names that do not lead above a place lead on below it as they would below the root. -/
theorem resolve_of_stays (stays : climbs inner.length names = false) (base : Place) :
    resolve (base ++ inner) names = base ++ resolve inner names := by
  induction names generalizing inner with
  | nil => rw [resolve, resolve]
  | cons name rest ih =>
      rw [climbs] at stays
      rw [resolve, resolve]
      by_cases dot : name = "."
      · rw [if_pos dot] at stays ⊢
        rw [if_pos dot]
        exact ih stays
      rw [if_neg dot] at stays ⊢
      rw [if_neg dot]
      by_cases up : name = ".."
      · rw [if_pos up] at stays ⊢
        rw [if_pos up]
        rcases List.eq_nil_or_concat inner with rfl | ⟨front, last, rfl⟩
        · cases stays
        · rw [List.concat_eq_append, List.length_append, List.length_singleton] at stays
          rw [List.concat_eq_append, ← List.append_assoc, List.dropLast_concat, List.dropLast_concat]
          exact ih (by simpa using stays)
      · rw [if_neg up] at stays ⊢
        rw [if_neg up, List.append_assoc]
        exact ih (by simpa using stays)

theorem mem_of_mem_resolve (member : name ∈ resolve place names) : name ∈ place ∨ name ∈ names := by
  induction names generalizing place with
  | nil => exact .inl (by rwa [resolve] at member)
  | cons first rest ih =>
      rw [resolve] at member
      split at member
      · exact (ih member).imp_right (List.mem_cons_of_mem _)
      · split at member
        · exact (ih member).imp List.mem_of_mem_dropLast (List.mem_cons_of_mem _)
        · rcases ih member with inside | later
          · rcases List.mem_append.mp inside with before | here
            · exact .inl before
            · exact .inr (List.mem_singleton.mp here ▸ List.mem_cons_self)
          · exact .inr (List.mem_cons_of_mem _ later)

/-- Names that lead above a place lead out of it. -/
theorem notMem_resolve_of_climbs (leaves : climbs inner.length names = true) (fresh : name ∉ inner)
    (freshNames : name ∉ names) : name ∉ resolve (name :: inner) names := by
  induction names generalizing inner with
  | nil => cases leaves
  | cons first rest ih =>
      obtain ⟨other, freshRest⟩ := List.ne_and_not_mem_of_not_mem_cons freshNames
      rw [climbs] at leaves
      rw [resolve]
      split
      · next dot =>
        rw [if_pos dot] at leaves
        exact ih leaves fresh freshRest
      next dot =>
      rw [if_neg dot] at leaves
      split
      · next up =>
        rw [if_pos up] at leaves
        rcases List.eq_nil_or_concat inner with rfl | ⟨front, last, rfl⟩
        · exact fun member => (mem_of_mem_resolve member).elim List.not_mem_nil freshRest
        · rw [List.concat_eq_append, List.length_append, List.length_singleton] at leaves
          rw [List.concat_eq_append] at fresh ⊢
          rw [← List.cons_append, List.dropLast_concat]
          exact ih (by simpa using leaves) (fun inside => fresh (List.mem_append_left _ inside)) freshRest
      · next up =>
        rw [if_neg up] at leaves
        refine @ih (inner ++ [first]) (by simpa using leaves) ?_ freshRest
        exact List.not_mem_append fresh (by simpa using other)

theorem exists_fresh (names : List String) : ∃ name : List Char, Path.IsName name ∧ IsPlain (String.ofList name) ∧
    String.ofList name ∉ names := by
  let letters := List.replicate ((names.map String.length).sum + 3) 'a'
  have long : (String.ofList letters).length = (names.map String.length).sum + 3 := by simp [letters]
  refine ⟨letters, ⟨by simp [letters], fun character member => ?_⟩, ⟨?_, ?_⟩, fun member => ?_⟩
  · rw [List.eq_of_mem_replicate member]
    decide
  · intro same
    have short : ".".length = 1 := rfl
    rw [same] at long
    omega
  · intro same
    have short : "..".length = 2 := rfl
    rw [same] at long
    omega
  · have short := List.le_sum_of_mem (List.mem_map_of_mem (f := String.length) member)
    omega

end Disk

namespace Path

/-- Whether the path of a source nowhere leads above where it starts, and leads to some place below. -/
def StaysBelow (source : String) : Prop :=
  Disk.climbs 0 (Disk.pathNames source) = false ∧ Disk.resolve [] (Disk.pathNames source) ≠ []

instance (source : String) : Decidable (StaysBelow source) :=
  inferInstanceAs (Decidable (_ ∧ _))

theorem placeOf_joinSlashed (base : Path) (source : String) :
    placeOf (base.joinSlashed source) = Disk.resolve (placeOf base) (Disk.pathNames source) := by
  rw [placeOf, pathNames_joinSlashed, Disk.resolve_append, placeOf]

theorem StaysBelow.placeOf_joinSlashed {source : String} (stays : StaysBelow source) (base : Path) :
    placeOf (base.joinSlashed source) = placeOf base ++ Disk.resolve [] (Disk.pathNames source) := by
  have below := @Disk.resolve_of_stays _ [] stays.1 (placeOf base)
  rw [List.append_nil] at below
  rw [Path.placeOf_joinSlashed, below]

/-- A source stands below every directory that it is put under exactly when its path stays below its start. -/
theorem below_joinSlashed_iff (base : Path) (source : String) :
    (∀ dir, Disk.Below (placeOf (base.join dir)) (placeOf ((base.join dir).joinSlashed source))) ↔
      StaysBelow source := by
  constructor
  · intro below
    obtain ⟨name, isName, plain, fresh⟩ := Disk.exists_fresh (Disk.pathNames source)
    obtain ⟨inside, apart⟩ := below ⟨"/" ++ String.ofList name⟩
    have start : placeOf (base.join ⟨"/" ++ String.ofList name⟩) = [String.ofList name] := by
      have rooted : isAbsolute ⟨"/" ++ String.ofList name⟩ = true := by simp [isAbsolute]
      have names : Disk.pathNames ("/" ++ String.ofList name) = [String.ofList name] := by
        have split := pathNames_append_slash "" (String.ofList name)
        rwa [String.empty_append, pathNames_name isName] at split
      rw [join, if_pos rooted, placeOf, names, Disk.resolve, if_neg plain.1, if_neg plain.2, Disk.resolve]
      rfl
    rw [Path.placeOf_joinSlashed, start] at inside apart
    have stays : Disk.climbs 0 (Disk.pathNames source) = false := by
      by_contra leaves
      have out := @Disk.notMem_resolve_of_climbs _ _ [] (by simpa using leaves) List.not_mem_nil fresh
      exact out (inside.subset List.mem_cons_self)
    refine ⟨stays, fun none => apart ?_⟩
    have whole := @Disk.resolve_of_stays _ [] stays [String.ofList name]
    rw [none] at whole
    exact whole.symm
  · intro stays dir
    rw [stays.placeOf_joinSlashed]
    exact Disk.below_append (List.prefix_refl _) stays.2

end Path

variable {project : Project} {engine : Engine} {seed : String} {options : Run.Options} {sources : List String}
  {workspace after : Workspace} {dir : Path} {disk : Disk} {result : Except Project.Error Report}

/-! ## What a run touches -/

namespace Run

/-- The paths where a run keeps what is its own: the cache, the entrypoint and artifacts. -/
def ownPaths (project : Project) (seed : String) (options : Run.Options) (sources : List String)
    (disk : Disk) : List Path :=
  Cache.path project :: closingPaths project options ++
    (filled disk project sources).flatMap fun pair =>
      let partition := Cache.partition (Cache.load disk project) pair.1
      generatedPaths project seed pair.1 pair.2 partition ++ discarded project seed pair.1 pair.2 partition

/-- The paths of the new forms of sources. -/
def rewrittenPaths (project : Project) (options : Run.Options) (sources : List String) (disk : Disk) : List Path :=
  (filled disk project sources).map fun pair => rewritePath project options.destination pair.1

/-- The paths that a run may write or free. -/
def touchedPaths (project : Project) (seed : String) (options : Run.Options) (sources : List String)
    (disk : Disk) : List Path :=
  ownPaths project seed options sources disk ++ rewrittenPaths project options sources disk

/-- The places of none of some paths. -/
def Besides (paths : List Path) (place : Place) : Prop :=
  ∀ path ∈ paths, place ≠ placeOf path

theorem apart_besides {paths listed : List Path} {base : Disk} (direct : ∀ path ∈ listed, base.Direct path)
    (inside : paths ⊆ listed) : Apart (Besides listed) base paths :=
  fun path member => ⟨direct path (inside member), fun held => held path (inside member) rfl⟩

theorem closing_subset (project : Project) (seed : String) (options : Run.Options) (sources : List String)
    (disk : Disk) :
    Cache.path project :: closingPaths project options ⊆ touchedPaths project seed options sources disk :=
  fun _ member => List.mem_append_left _ (List.mem_append_left _ member)

theorem step_subset {pair : String × SourceScan} (member : pair ∈ filled disk project sources) :
    generatedPaths project seed pair.1 pair.2 (Cache.partition (Cache.load disk project) pair.1) ⊆
        touchedPaths project seed options sources disk ∧
      replacedPaths project seed options.destination pair.1 pair.2
        (Cache.partition (Cache.load disk project) pair.1) ⊆ touchedPaths project seed options sources disk := by
  have own : ∀ path, path ∈ generatedPaths project seed pair.1 pair.2
        (Cache.partition (Cache.load disk project) pair.1) ++
          discarded project seed pair.1 pair.2 (Cache.partition (Cache.load disk project) pair.1) →
      path ∈ touchedPaths project seed options sources disk := fun path inside =>
    List.mem_append_left _ (List.mem_append_right _ (List.mem_flatMap.mpr ⟨pair, member, inside⟩))
  refine ⟨fun path inside => own path (List.mem_append_left _ inside), List.cons_subset.mpr ⟨?_, fun path inside =>
    own path (List.mem_append_right _ inside)⟩⟩
  exact List.mem_append_right _ (List.mem_map_of_mem member)

/-- A run leaves all places alone but those of the paths that it touches, when no link is on the way to these. -/
theorem spares_of_run (confined : Generation.Confined engine)
    (direct : ∀ path ∈ touchedPaths project seed options sources workspace.disk, workspace.disk.Direct path)
    (ran : run project engine seed options sources workspace = (result, after)) :
    workspace.disk.Spares (Besides (touchedPaths project seed options sources workspace.disk)) after.disk := by
  by_cases present : sources = []
  · subst present
    rw [← (Prod.mk.inj ran).2]
    exact .refl _
  by_cases planned : options.dryRun = true
  · rw [run_dry present planned ran]
    exact .refl _
  have real : options.dryRun = false := by simpa using planned
  have grows := ensureDirectories_grows project workspace.disk
  cases prepared : (ensureDirectories project workspace.disk).1 with
  | error cause =>
      rw [run_eq_error present real prepared] at ran
      have same := congrArg Workspace.disk (Prod.mk.inj ran).2
      dsimp only at same
      rw [← same]
      exact grows.spares
  | ok _ =>
      rw [run_eq_finish present real prepared] at ran
      have links := grows.keeps.links
      have stood : ∀ path ∈ touchedPaths project seed options sources workspace.disk,
          (ensureDirectories project workspace.disk).2.Direct path :=
        fun path member => (direct path member).of_links links
      have spares : (ensureDirectories project workspace.disk).2.Spares
          (Besides (touchedPaths project seed options sources workspace.disk))
          (last project engine seed options sources workspace).workspace.disk := by
        refine steps_spares confined (nodup_filled workspace.disk project sources) (fun pair member => ?_)
          (by rw [start_disk]; exact .refl _)
        rw [start_cache]
        obtain ⟨generated, replaced⟩ := @step_subset _ seed options _ _ _ member
        refine ⟨apart_besides stood generated, apart_besides stood replaced, fun path inside => ?_⟩
        exact (stood path (replaced (List.mem_cons_of_mem _ inside))).not_link
      have whole := grows.spares.trans spares
      have closing := closing_subset project seed options sources workspace.disk
      have ended : ∀ path ∈ Cache.path project :: closingPaths project options,
          (last project engine seed options sources workspace).workspace.disk.Direct path :=
        fun path member => (direct path (closing member)).of_links whole.links
      refine whole.trans ?_
      cases result with
      | error cause =>
          refine finish_spares_apart (fun path member => ⟨ended path (List.mem_cons_of_mem _ member), ?_⟩) ran
          exact fun held => held path (closing (List.mem_cons_of_mem _ member)) rfl
      | ok report =>
          obtain ⟨place, opens⟩ := ensureDirectories_opens prepared
          obtain ⟨disk, early, saved, _⟩ := finish_spares_early ended ran
          have later := (save_spares ((opens.of_keepsWays spares.ways).of_keepsWays early.ways)
            (fun path member => (ended path member).of_links early.links) saved).1
          refine (early.mono fun place held path member => held path (closing member)).trans (later.mono ?_)
          exact fun place held => ⟨held _ (closing List.mem_cons_self),
            held _ (closing (List.mem_cons_of_mem _ List.mem_cons_self))⟩

/-! ## Runs that write under a directory -/

/-- The place of a source. -/
def sourcePlace (project : Project) (source : String) : Place :=
  placeOf (project.workingDir.joinSlashed source)

/-- Whether the new forms of sources have a directory to themselves: the paths of sources stay below their start,
no source stands in the directory or where the run keeps what is its own, and no link is on the way. -/
structure Housed (project : Project) (seed : String) (options : Run.Options) (dir : Path) (sources : List String)
    (disk : Disk) : Prop where
  stays : ∀ source ∈ sources.map Path.slashed, Path.StaysBelow source
  outside : ∀ source ∈ sources.map Path.slashed,
    ¬ Disk.Below (placeOf (project.workingDir.join dir)) (sourcePlace project source)
  apart : ∀ source ∈ sources.map Path.slashed,
    Besides (ownPaths project seed options sources disk) (sourcePlace project source)
  direct : ∀ path ∈ touchedPaths project seed options sources disk ++
    (sources.map Path.slashed).map project.workingDir.joinSlashed, disk.Direct path

theorem placeOf_rewritePath {source : String} (stays : Path.StaysBelow source) :
    placeOf (rewritePath project (.directory dir) source) =
        placeOf (project.workingDir.join dir) ++ Disk.resolve [] (Disk.pathNames source) ∧
      sourcePlace project source =
        placeOf project.workingDir ++ Disk.resolve [] (Disk.pathNames source) :=
  ⟨stays.placeOf_joinSlashed _, stays.placeOf_joinSlashed _⟩

theorem Rewrites.mem {source : String} {scanned : SourceScan}
    (rewrites : Rewrites project engine seed options sources workspace source scanned) :
    source ∈ sources.map Path.slashed := by
  obtain ⟨_, front, back, split, _⟩ := rewrites
  have member : (source, scanned) ∈ filled workspace.disk project sources := by simp [split]
  exact mem_slashed_of_mem_filled member

/-- What is neither in the directory nor of the run's own is of no path that the run touches. -/
theorem Housed.besides (housed : Housed project seed options dir sources disk)
    (target : options.destination = .directory dir) {place : Place}
    (outside : ¬ Disk.Below (placeOf (project.workingDir.join dir)) place)
    (apart : Besides (ownPaths project seed options sources disk) place) :
    Besides (touchedPaths project seed options sources disk) place := by
  intro path touched same
  rcases List.mem_append.mp touched with own | rewritten
  · exact apart path own same
  · obtain ⟨pair, member, rfl⟩ := List.mem_map.mp rewritten
    have stays := housed.stays pair.1 (mem_slashed_of_mem_filled member)
    rw [target, (placeOf_rewritePath stays).1] at same
    exact outside (same ▸ Disk.below_append (List.prefix_refl _) stays.2)

end Run

/-- The new form of a source stands in every directory that it is put under exactly when the path of the source
stays below its start. A run whose sources all have such paths writes nothing but its own outside the directory,
writes different sources to different places in it, and leaves the sources as they were. -/
theorem directory_run_contained (project : Project) :
    (∀ source, (∀ dir, Disk.Below (placeOf (project.workingDir.join dir))
        (placeOf (Run.rewritePath project (.directory dir) source))) ↔ Path.StaysBelow source) ∧
    ∀ engine seed options dir sources workspace result after, options.destination = .directory dir →
      Generation.Confined engine → Run.Housed project seed options dir sources workspace.disk →
      run project engine seed options sources workspace = (result, after) →
      (∀ source scanned, Run.Rewrites project engine seed options sources workspace source scanned →
        Disk.Below (placeOf (project.workingDir.join dir))
          (placeOf (Run.rewritePath project options.destination source))) ∧
      (∀ source scanned other otherScanned,
        Run.Rewrites project engine seed options sources workspace source scanned →
        Run.Rewrites project engine seed options sources workspace other otherScanned →
        placeOf (Run.rewritePath project options.destination source) =
          placeOf (Run.rewritePath project options.destination other) →
        Run.sourcePlace project source = Run.sourcePlace project other) ∧
      workspace.disk.Spares (fun place => ¬ Disk.Below (placeOf (project.workingDir.join dir)) place ∧
        Run.Besides (Run.ownPaths project seed options sources workspace.disk) place) after.disk ∧
      ∀ source ∈ sources.map Path.slashed, ∀ content,
        workspace.disk.read (project.workingDir.joinSlashed source) = .ok content →
        after.disk.read (project.workingDir.joinSlashed source) = .ok content := by
  refine ⟨Path.below_joinSlashed_iff project.workingDir,
    fun engine seed options dir sources workspace result after target confined housed ran => ?_⟩
  have direct := List.forall_mem_append.mp housed.direct
  have spares : workspace.disk.Spares (fun place => ¬ Disk.Below (placeOf (project.workingDir.join dir)) place ∧
      Run.Besides (Run.ownPaths project seed options sources workspace.disk) place) after.disk :=
    (Run.spares_of_run confined direct.1 ran).mono fun place held => housed.besides target held.1 held.2
  refine ⟨fun source scanned rewrites => ?_, fun source scanned other otherScanned rewrites rewritesOther same => ?_,
    spares, fun source listed content read => ?_⟩
  · have stays := housed.stays source rewrites.mem
    rw [target, (Run.placeOf_rewritePath stays).1]
    exact Disk.below_append (List.prefix_refl _) stays.2
  · have place := @Run.placeOf_rewritePath project dir _ (housed.stays source rewrites.mem)
    have placeOther := @Run.placeOf_rewritePath project dir _ (housed.stays other rewritesOther.mem)
    rw [target, place.1, placeOther.1, List.append_cancel_left_eq] at same
    rw [place.2, placeOther.2, same]
  · exact spares.read (direct.2 _ (List.mem_map_of_mem listed))
      ⟨housed.outside source listed, housed.apart source listed⟩ read

theorem smallDisk_housed :
    ["a.ts"].map Path.slashed = ["a.ts"] ∧ Path.StaysBelow "a.ts" ∧
    ¬ Disk.Below (placeOf (Run.smallProject.workingDir.join ⟨"o"⟩)) (Run.sourcePlace Run.smallProject "a.ts") ∧
    ∀ path ∈ Run.ownPaths Run.smallProject "" Run.smallOptions ["a.ts"] Run.smallDisk,
      Run.sourcePlace Run.smallProject "a.ts" ≠ placeOf path := by
  decide +kernel

theorem housed_smallDisk : Run.Housed Run.smallProject "" Run.smallOptions ⟨"o"⟩ ["a.ts"] Run.smallDisk := by
  obtain ⟨listed, stays, outside, apart⟩ := smallDisk_housed
  refine ⟨?_, ?_, ?_, fun path _ => smallDisk_direct path⟩ <;> rw [listed, List.forall_mem_singleton]
  exacts [stays, outside, apart]

theorem directory_run_contained_small :
    ∃ report after scanned,
      run Run.smallProject blankEngine "" Run.smallOptions ["a.ts"] ⟨Run.smallDisk, []⟩ = (.ok report, after) ∧
      Run.Rewrites Run.smallProject blankEngine "" Run.smallOptions ["a.ts"] ⟨Run.smallDisk, []⟩ "a.ts" scanned ∧
      Disk.Below (placeOf (Run.smallProject.workingDir.join ⟨"o"⟩))
        (placeOf (Run.rewritePath Run.smallProject Run.smallOptions.destination "a.ts")) ∧
      after.disk.read (Run.smallProject.workingDir.joinSlashed "a.ts") = .ok Run.smallSource.toUTF8 := by
  obtain ⟨listed, path, before, filled, _⟩ := smallDisk_places
  obtain ⟨report, after, ran, facts⟩ := exists_of_outcome Run.smallRun_report
  have succeeded : report.failures = [] := List.map_eq_nil_iff.mp (Prod.mk.inj facts).2
  have written : "a.ts" ∈ (Run.filled Run.smallDisk Run.smallProject ["a.ts"]).map (·.1) := by
    rw [filled, List.mem_singleton]
  obtain ⟨⟨_, scanned⟩, member, rfl⟩ := List.mem_map.mp written
  have rewrites := Run.rewrites_of_success (by simp) rfl ran succeeded member
  obtain ⟨inside, _, _, kept⟩ := (directory_run_contained Run.smallProject).2 blankEngine "" Run.smallOptions
    ⟨"o"⟩ ["a.ts"] ⟨Run.smallDisk, []⟩ (.ok report) after rfl confined_blankEngine housed_smallDisk ran
  refine ⟨report, after, scanned, ran, rewrites, inside _ _ rewrites, kept _ ?_ _ ?_⟩
  · rw [listed, List.mem_singleton]
  · rw [path]
    exact eq_ok_of_toOption before

/-- A project in a directory that has a source beside it. -/
def innerProject : Project :=
  ⟨⟨"/p"⟩, { entrypoint := ⟨"i"⟩, cacheDir := ⟨"c"⟩, typesRootDir := "t" }, "", Syntax.parse⟩

/-- A disk with a source beside a project and another one of the same name in it. -/
def besideDisk : Disk :=
  ⟨[(["a.ts"], .file Run.smallSource.toUTF8), (["p"], .directory), (["p", "a.ts"], .file "1".toUTF8)]⟩

theorem besideDisk_places :
    [⟨"../a.ts"⟩, ⟨"/p/a.ts"⟩].map innerProject.canonicalSource = ["../a.ts", "a.ts"] ∧
    (∀ source ∈ ["../a.ts", "a.ts"],
      ¬ Disk.Below (placeOf (innerProject.workingDir.join ⟨"o"⟩)) (Run.sourcePlace innerProject source)) ∧
    placeOf (Run.rewritePath innerProject Run.smallOptions.destination "../a.ts") =
      Run.sourcePlace innerProject "a.ts" ∧
    (besideDisk.read (innerProject.workingDir.joinSlashed "a.ts")).toOption = some "1".toUTF8 := by
  decide +kernel

/-- The new form of a source beside the project goes over a source of the project, though neither stands in the
directory that was asked for. -/
theorem directory_run_overwrites :
    [⟨"../a.ts"⟩, ⟨"/p/a.ts"⟩].map innerProject.canonicalSource = ["../a.ts", "a.ts"] ∧
    Run.smallOptions.destination = .directory ⟨"o"⟩ ∧
    (∀ source ∈ ["../a.ts", "a.ts"],
      ¬ Disk.Below (placeOf (innerProject.workingDir.join ⟨"o"⟩)) (Run.sourcePlace innerProject source)) ∧
    placeOf (Run.rewritePath innerProject Run.smallOptions.destination "../a.ts") =
      Run.sourcePlace innerProject "a.ts" ∧
    (besideDisk.read (innerProject.workingDir.joinSlashed "a.ts")).toOption = some "1".toUTF8 ∧
    ((run innerProject blankEngine "" Run.smallOptions ["../a.ts", "a.ts"] ⟨besideDisk, []⟩).2.disk.read
      (innerProject.workingDir.joinSlashed "a.ts")).toOption ≠ some "1".toUTF8 := by
  obtain ⟨canonical, outside, replaced, before⟩ := besideDisk_places
  refine ⟨canonical, rfl, outside, replaced, before, ?_⟩
  decide +kernel

end TypedLiterals
