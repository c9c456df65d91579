import TypedLiterals.Proofs.Generation.Writing

/-!
What a run that stops leaves behind.

A run stops when its directories cannot be made, or when all sources went through their steps and the
entrypoint or the cache cannot be written. The cache on the disk is then the one that the run began with.
Stale artifacts were taken away all the same, and sources were written, so the entries of the cache keep
their artifacts only if nothing was stale, and a source that was written over itself finds its references
in the cache only if it had no new literal.
-/

namespace TypedLiterals

open Disk (Place placeOf)

variable {project : Project} {engine : Engine} {seed : String} {options : Run.Options}
  {sources : List String} {workspace after : Workspace} {progress : Run.Progress} {cause : Project.Error}
  {source hash : String} {scanned : SourceScan} {partition : Partition} {path : Path} {cache : Cache}
  {base disk written : Disk} {Held : Place → Prop}

/-! ## Failing to write -/

theorem Cache.save_eq_error (failed : Cache.save disk project cache = (.error cause, written)) :
    ∃ prepared, disk.Grows prepared ∧ (written = prepared ∨
      ∃ text, prepared.writeText (Cache.temporaryPath project) text = .ok written) := by
  have grows := Disk.ensureParent_grows disk (Cache.path project)
  unfold Cache.save at failed
  cases above : disk.ensureParent (Cache.path project) with
  | mk result prepared =>
      rw [above] at failed grows
      refine ⟨prepared, grows, ?_⟩
      cases result with
      | error fault => exact .inl (Prod.mk.inj failed).2.symm
      | ok _ =>
          generalize Cache.document cache = text at failed
          cases wrote : prepared.writeText (Cache.temporaryPath project) text with
          | error fault =>
              simp only [wrote, Prod.mk.injEq] at failed
              exact .inl failed.2.symm
          | ok middle =>
              cases renamed : middle.rename (Cache.temporaryPath project) (Cache.path project) with
              | ok last => simp [wrote, renamed] at failed
              | error fault =>
                  simp only [wrote, renamed, Prod.mk.injEq] at failed
                  exact .inr ⟨text, failed.2 ▸ wrote⟩

theorem Entrypoint.write_eq_error
    (failed : Entrypoint.write disk project cache = (.error cause, written)) : disk.Grows written := by
  have grows := Disk.ensureParent_grows disk project.entrypoint
  unfold Entrypoint.write at failed
  dsimp only at failed
  cases above : disk.ensureParent project.entrypoint with
  | mk result prepared =>
      rw [above] at failed grows
      cases result with
      | error fault => exact (Prod.mk.inj failed).2 ▸ grows
      | ok _ =>
          generalize Entrypoint.render project cache = text at failed
          cases wrote : prepared.writeText project.entrypoint text with
          | ok last => simp [wrote] at failed
          | error fault =>
              simp only [wrote, Prod.mk.injEq] at failed
              exact failed.2 ▸ grows

namespace Run

/-- What the end of a run does when it stops: the entrypoint may be written, and the cache is not kept. -/
theorem finish_eq_error (failed : finish project options progress = (.error cause, after)) :
    ∃ disk, (disk = progress.workspace.disk ∨ options.entrypoint = true ∧ ∃ prepared text,
        progress.workspace.disk.Grows prepared ∧
        prepared.writeText project.entrypoint text = .ok disk) ∧
      (disk.Grows after.disk ∨ Cache.save disk project progress.cache = (.error cause, after.disk)) := by
  unfold finish at failed
  cases wanted : options.entrypoint with
  | false =>
      refine ⟨_, .inl rfl, .inr ?_⟩
      cases saved : Cache.save progress.workspace.disk project progress.cache with
      | mk result disk =>
          cases result with
          | ok _ => simp [wanted, saved, Except.map] at failed
          | error fault =>
              simp only [wanted, saved, Except.map, Bool.false_eq_true, if_false, Prod.mk.injEq,
                Except.error.injEq] at failed
              rw [failed.1, ← failed.2]
  | true =>
      cases wrote : Entrypoint.write progress.workspace.disk project progress.cache with
      | mk result written =>
          cases result with
          | error fault =>
              simp only [wanted, wrote, Except.map, if_true, Prod.mk.injEq] at failed
              refine ⟨_, .inl rfl, .inl ?_⟩
              rw [← failed.2]
              exact Entrypoint.write_eq_error wrote
          | ok path =>
              refine ⟨written, .inr ⟨rfl, entrypoint_write_grows wrote⟩, .inr ?_⟩
              cases saved : Cache.save written project progress.cache with
              | mk result disk =>
                  cases result with
                  | ok _ => simp [wanted, wrote, saved, Except.map] at failed
                  | error fault =>
                      simp only [wanted, wrote, saved, Except.map, if_true, Prod.mk.injEq,
                        Except.error.injEq] at failed
                      rw [failed.1, ← failed.2]

/-- A run that stops does so before its first source or after its last. -/
theorem run_eq_stop (real : options.dryRun = false)
    (ran : run project engine seed options sources workspace = (.error cause, after)) :
    ((ensureDirectories project workspace.disk).1 ≠ .ok () ∧
      after.disk = (ensureDirectories project workspace.disk).2) ∨
    ((ensureDirectories project workspace.disk).1 = .ok () ∧
      finish project options (last project engine seed options sources workspace) =
        (.error cause, after)) := by
  have present : sources ≠ [] := by
    rintro rfl
    cases ran
  cases made : (ensureDirectories project workspace.disk).1 with
  | error fault =>
      rw [run_eq_error present real made] at ran
      exact .inl ⟨nofun, by rw [← (Prod.mk.inj ran).2]⟩
  | ok _ => exact .inr ⟨rfl, by rw [← run_eq_finish present real made, ran]⟩

/-! ## What is kept -/

/-- The paths that a run may write, other than the document of the cache. -/
def writtenPaths (project : Project) (seed : String) (options : Run.Options) (sources : List String)
    (disk : Disk) : List Path :=
  closingPaths project options ++
    (filled disk project sources).flatMap fun pair =>
      rewritePath project options.destination pair.1 ::
        generatedPaths project seed pair.1 pair.2 (Cache.partition (Cache.load disk project) pair.1)

/-- Whether a path is that of an artifact of some entry of the cache on a disk. -/
def Recorded (project : Project) (disk : Disk) (path : Path) : Prop :=
  ∃ source, path ∈ Partition.artifacts project source (Cache.partition (Cache.load disk project) source)

/-- Whether the document of the cache and the artifacts of its entries are out of the way of what a run
writes: no link stands on the way to any of them, and none of their places is written. -/
structure Undisturbed (project : Project) (seed : String) (options : Run.Options) (sources : List String)
    (disk : Disk) : Prop where
  written : ∀ path ∈ writtenPaths project seed options sources disk, disk.Direct path
  recorded : ∀ path, Recorded project disk path → disk.Direct path
  document : disk.Direct (Cache.path project)
  /-- A file at the place of the document is found there. -/
  found : ∀ content, disk.node? (placeOf (Cache.path project)) = some (.file content) →
    disk.read (Cache.path project) = .ok content
  apart : ∀ path ∈ writtenPaths project seed options sources disk, ∀ kept, Recorded project disk kept →
    placeOf path ≠ placeOf kept
  apartDocument : ∀ path ∈ writtenPaths project seed options sources disk,
    placeOf path ≠ placeOf (Cache.path project)
  recordedDocument : ∀ path, Recorded project disk path → placeOf path ≠ placeOf (Cache.path project)
  /-- The new forms of sources have places of their own. -/
  rewritten : ∀ pair ∈ filled disk project sources,
    ∀ path ∈ closingPaths project options ++ otherPaths project seed options sources disk pair.1,
      placeOf path ≠ placeOf (rewritePath project options.destination pair.1)

/-- The fingerprints of the imports that rewriting adds to a source. -/
def addedHashes (project : Project) (seed source : String) (scanned : SourceScan) (partition : Partition) :
    List String :=
  (newImports scanned.importedHashes
    ((Plan.ofScan project seed source scanned partition).records.map fun record =>
      ⟨record.hash, record.location.module⟩)).map (·.hash)

theorem mem_map_hash_newImports {imported : List String} {artifacts : List Artifact} :
    hash ∈ (newImports imported artifacts).map (·.hash) ↔
      hash ∉ imported ∧ hash ∈ artifacts.map (·.hash) := by
  induction artifacts generalizing imported with
  | nil => simp [newImports]
  | cons first rest ih =>
      rw [newImports]
      split
      · next known =>
          have member : first.hash ∈ imported := by simpa using known
          rw [ih, List.map_cons, List.mem_cons]
          refine and_congr_right fun fresh => ⟨.inr, fun found => found.resolve_left ?_⟩
          rintro rfl
          exact fresh member
      · next unknown =>
          have fresh : first.hash ∉ imported := by simpa using unknown
          rw [List.map_cons, List.map_cons, List.mem_cons, List.mem_cons, ih, List.mem_cons, not_or]
          by_cases same : hash = first.hash
          · simp [same, fresh]
          · simp [same]

theorem mem_addedHashes :
    hash ∈ addedHashes project seed source scanned partition ↔ hash ∉ scanned.importedHashes ∧
      ∃ record ∈ (Plan.ofScan project seed source scanned partition).records, record.hash = hash := by
  rw [addedHashes, mem_map_hash_newImports, List.map_map, List.mem_map]
  rfl

/-- The paths that a run frees of stale artifacts. -/
def Freed (project : Project) (engine : Engine) (seed : String) (options : Run.Options)
    (sources : List String) (workspace : Workspace) (path : Path) : Prop :=
  ∃ source scanned, Generates project engine seed options sources workspace source scanned ∧
    path ∈ discarded project seed source scanned
      (Cache.partition (Cache.load workspace.disk project) source)

/-- The places of the document and of all artifacts on record that a run does not free. -/
def Kept (project : Project) (engine : Engine) (seed : String) (options : Run.Options)
    (sources : List String) (workspace : Workspace) (place : Place) : Prop :=
  (place = placeOf (Cache.path project) ∨ ∃ path, Recorded project workspace.disk path ∧
    place = placeOf path) ∧
  ∀ path, Freed project engine seed options sources workspace path → place ≠ placeOf path

theorem recorded_of_mem_discarded (member : path ∈ discarded project seed source scanned
    (Cache.partition (Cache.load disk project) source)) : Recorded project disk path :=
  ⟨source, discarded_subset project seed source scanned _ member⟩

theorem Undisturbed.apart_written
    (undisturbed : Undisturbed project seed options sources workspace.disk) (engine : Engine) {paths : List Path}
    (inside : paths ⊆ writtenPaths project seed options sources workspace.disk)
    (links : ∀ place target, base.node? place = some (.link target) →
      workspace.disk.node? place = some (.link target)) :
    Apart (Kept project engine seed options sources workspace) base paths := by
  intro path member
  refine ⟨(undisturbed.written path (inside member)).of_links links, ?_⟩
  rintro ⟨document | ⟨kept, recorded, same⟩, _⟩
  · exact undisturbed.apartDocument path (inside member) document
  · exact undisturbed.apart path (inside member) kept recorded same

theorem generatedPaths_subset_writtenPaths {pair : String × SourceScan}
    (member : pair ∈ filled disk project sources) :
    generatedPaths project seed pair.1 pair.2 (Cache.partition (Cache.load disk project) pair.1) ⊆
      writtenPaths project seed options sources disk := fun _ inside =>
  List.mem_append_right _ (List.mem_flatMap.mpr ⟨pair, member, List.mem_cons_of_mem _ inside⟩)

theorem rewritePath_mem_writtenPaths {pair : String × SourceScan}
    (member : pair ∈ filled disk project sources) :
    rewritePath project options.destination pair.1 ∈ writtenPaths project seed options sources disk :=
  List.mem_append_right _ (List.mem_flatMap.mpr ⟨pair, member, List.mem_cons_self⟩)

theorem finish_spares_apart (apart : Apart Held progress.workspace.disk (closingPaths project options))
    (failed : finish project options progress = (.error cause, after)) :
    progress.workspace.disk.Spares Held after.disk := by
  obtain ⟨disk, begun, ended⟩ := finish_eq_error failed
  have spares : progress.workspace.disk.Spares Held disk := by
    rcases begun with rfl | ⟨wanted, prepared, text, grown, wrote⟩
    · exact .refl _
    · have asked : project.entrypoint ∈ closingPaths project options := by simp [closingPaths, wanted]
      exact spares_write_of_mem apart asked grown.spares wrote
  rcases ended with grown | failed
  · exact spares.trans grown.spares
  · obtain ⟨prepared, grown, same | ⟨text, wrote⟩⟩ := Cache.save_eq_error failed
    · exact same ▸ spares.trans grown.spares
    · exact spares_write_of_mem apart List.mem_cons_self (spares.trans grown.spares) wrote

section

variable (undisturbed : Undisturbed project seed options sources workspace.disk)
  (confined : Generation.Confined engine)
include undisturbed confined

omit confined in
theorem Undisturbed.lasting {pair : String × SourceScan}
    (member : pair ∈ filled workspace.disk project sources) :
    Lasting project seed options sources workspace.disk pair.1 where
  own := undisturbed.written _ (rewritePath_mem_writtenPaths member)
  direct := by
    intro path inside
    obtain ⟨other, listed, found⟩ := List.mem_flatMap.mp inside
    rcases List.mem_append.mp found with found | found
    · rcases List.mem_append.mp found with generated | rewritten
      · exact undisturbed.written path (generatedPaths_subset_writtenPaths listed generated)
      · split at rewritten
        · cases rewritten
        · rw [List.mem_singleton.mp rewritten]
          exact undisturbed.written _ (rewritePath_mem_writtenPaths listed)
    · exact undisturbed.recorded path (recorded_of_mem_discarded found)
  apart := fun path inside => undisturbed.rewritten pair member path (List.mem_append_right _ inside)

/-- The first sources of a run leave alone what is kept. Stale artifacts are taken away only from sources
that went through generation, and these are freed. -/
theorem steps_spares_kept (prepared : (ensureDirectories project workspace.disk).1 = .ok ())
    {early late : List (String × SourceScan)} (split : filled workspace.disk project sources = early ++ late) :
    (ensureDirectories project workspace.disk).2.Spares
      (Kept project engine seed options sources workspace)
      (steps project engine seed options (start project sources workspace) early).workspace.disk := by
  have grows := ensureDirectories_grows project workspace.disk
  refine steps_induction (fun later => (ensureDirectories project workspace.disk).2.Spares
    (Kept project engine seed options sources workspace) later.workspace.disk) ?_
    (by rw [start_disk]; exact .refl _)
  intro front pair back inner spares
  have whole : filled workspace.disk project sources = front ++ pair :: (back ++ late) := by
    rw [split, inner, List.append_assoc, List.cons_append]
  have member : pair ∈ filled workspace.disk project sources := by simp [whole]
  have same := steps_start_partition engine seed options whole
  have generated := undisturbed.apart_written engine
    (generatedPaths_subset_writtenPaths member) grows.keeps.links
  rw [← same] at generated
  rcases step_cases project engine seed options
      (steps project engine seed options (start project sources workspace) front) pair.1 pair.2 with
    ⟨_, middle, made, stepped⟩ | reached
  · have kept := stepGeneration_spares options confined generated spares
    rw [stepped]
    rwa [made] at kept
  · have freed : ∀ path ∈ discarded project seed pair.1 pair.2
        (Cache.partition (Cache.load workspace.disk project) pair.1),
        Freed project engine seed options sources workspace path := by
      refine fun path inside => ⟨pair.1, pair.2, ⟨prepared, front, back ++ late, whole, ?_⟩, inside⟩
      rcases reached with ⟨count, _, _, made, _⟩ | ⟨count, _, _, made, _⟩
      · exact ⟨count, by rw [made]⟩
      · exact ⟨count, by rw [made]⟩
    refine step_spares confined ⟨generated, ?_, ?_⟩ spares
    · rw [same]
      rintro path inside
      rcases List.mem_cons.mp inside with rfl | inside
      · exact undisturbed.apart_written engine
          (List.cons_subset.mpr ⟨rewritePath_mem_writtenPaths member, List.nil_subset _⟩)
          grows.keeps.links _ List.mem_cons_self
      · exact ⟨(undisturbed.recorded path (recorded_of_mem_discarded inside)).of_links grows.keeps.links,
          fun kept => kept.2 path (freed path inside) rfl⟩
    · rw [same]
      exact fun path inside => ((undisturbed.recorded path (recorded_of_mem_discarded inside)).of_links
        grows.keeps.links).not_link

theorem stop_spares_kept (real : options.dryRun = false)
    (ran : run project engine seed options sources workspace = (.error cause, after)) :
    workspace.disk.Spares (Kept project engine seed options sources workspace) after.disk := by
  have grows := ensureDirectories_grows project workspace.disk
  rcases run_eq_stop real ran with ⟨_, same⟩ | ⟨prepared, finished⟩
  · exact same ▸ grows.spares
  · have spares := grows.spares.trans
      (steps_spares_kept undisturbed confined prepared (List.append_nil _).symm)
    exact spares.trans (finish_spares_apart
      (undisturbed.apart_written engine (List.subset_append_left _ _) spares.links) finished)

end

theorem load_of_read {content : ByteArray} (before : disk.read (Cache.path project) = .ok content)
    (also : written.read (Cache.path project) = .ok content) :
    Cache.load written project = Cache.load disk project := by
  unfold Cache.load Disk.readText
  rw [before, also]

theorem load_of_not_read (unread : ∀ content, disk.read (Cache.path project) ≠ .ok content) :
    Cache.load disk project = .empty := by
  unfold Cache.load Disk.readText
  cases read : disk.read (Cache.path project) with
  | error fault => simp [bind, Except.bind]
  | ok content => exact absurd read (unread content)

theorem load_of_spares (spares : disk.Spares Held written) (held : Held (placeOf (Cache.path project)))
    (direct : disk.Direct (Cache.path project))
    (found : ∀ content, disk.node? (placeOf (Cache.path project)) = some (.file content) →
      disk.read (Cache.path project) = .ok content) :
    Cache.load written project = Cache.load disk project := by
  by_cases file : ∃ content, disk.node? (placeOf (Cache.path project)) = some (.file content)
  · obtain ⟨content, stands⟩ := file
    exact load_of_read (found content stands) (spares.read direct held (found content stands))
  · have fileless : disk.Fileless (placeOf (Cache.path project)) :=
      fun content stands => file ⟨content, stands⟩
    rw [load_of_not_read fun _ => fileless.read direct,
      load_of_not_read fun _ => (spares.fileless held fileless).read (direct.of_links spares.links)]

theorem isFile_of_spares (spares : disk.Spares Held written) (held : Held (placeOf path))
    (direct : disk.Direct path) (file : disk.isFile path = true) : written.isFile path = true := by
  obtain ⟨named, place, leads, _, stands, content, rfl⟩ := Disk.isFile_iff.mp file
  have read := spares.read direct held (Disk.read_eq_ok_iff.mpr ⟨named, place, leads, stands⟩)
  obtain ⟨_, other, leadsAfter, standsAfter⟩ := Disk.read_eq_ok_iff.mp read
  exact Disk.isFile_iff.mpr ⟨named, other, leadsAfter, _, standsAfter, content, rfl⟩

/-! ## What is freed -/

/-- Whether no link was made since a disk, and no file stands at a place. -/
def Gone (base : Disk) (place : Place) (disk : Disk) : Prop :=
  (∀ other target, disk.node? other = some (.link target) → base.node? other = some (.link target)) ∧
    disk.Fileless place

theorem Gone.of_spares {place : Place} (gone : Gone base place disk)
    (spares : disk.Spares (· = place) written) : Gone base place written :=
  ⟨fun other target link => gone.1 other target (spares.links other target link), spares.fileless rfl gone.2⟩

theorem Gone.grows {place : Place} (gone : Gone base place disk) (grown : disk.Grows written) :
    Gone base place written :=
  gone.of_spares grown.spares

theorem Gone.removeArtifact {place : Place} (gone : Gone base place disk) (path : Path) :
    Gone base place (removeArtifact disk path) := by
  refine ⟨fun other target link => gone.1 other target ?_, fileless_removeArtifact gone.2⟩
  rcases removeArtifact_cases disk path with same | ⟨_, _, _, _, same⟩
  · exact same ▸ link
  · rw [same] at link
    exact Disk.links_erase link

/-- Whether what holds of a disk lasts as long as a place is only written by what removes artifacts. -/
structure Stable (base : Disk) (place : Place) (Holds : Disk → Prop) : Prop where
  links : ∀ disk, Holds disk → ∀ other target, disk.node? other = some (.link target) →
    base.node? other = some (.link target)
  spares : ∀ before after, Holds before → before.Spares (· = place) after → Holds after
  removes : ∀ disk path, base.Direct path → Holds disk → Holds (removeArtifact disk path)

theorem gone_stable (base : Disk) (place : Place) : Stable base place (Gone base place) where
  links := fun _ gone => gone.1
  spares := fun _ _ gone spares => gone.of_spares spares
  removes := fun _ path _ gone => gone.removeArtifact path

section

variable {place : Place} {Holds : Disk → Prop} (stable : Stable base place Holds)
include stable

theorem Stable.write {text : String} (holds : Holds disk) (direct : base.Direct path)
    (apart : placeOf path ≠ place) (wrote : disk.writeText path text = .ok written) : Holds written :=
  stable.spares _ _ holds (Disk.spares_write (direct.of_links (stable.links _ holds)) apart wrote)

theorem Stable.answers (confined : Generation.Confined engine)
    (generated : ∀ path ∈ generatedPaths project seed source scanned (progress.cache.partition source),
      base.Direct path ∧ placeOf path ≠ place) :
    ∀ record ∈ (Plan.ofScan project seed source scanned (progress.cache.partition source)).records,
      record.skip = false → ∀ disk, Holds disk → Holds (engine (Generation.request project record) disk).2 := by
  intro record member wanted disk holds
  have listed : ∀ path ∈ record.location.artifacts,
      path ∈ generatedPaths project seed source scanned (progress.cache.partition source) := fun path inside =>
    List.mem_flatMap.mpr ⟨record, List.mem_filter.mpr ⟨member, by simp [wanted]⟩, inside⟩
  have module := generated _ (listed record.location.module (by simp [Location.artifacts]))
  have declaration := generated _ (listed record.location.declaration (by simp [Location.artifacts]))
  have links := stable.links _ holds
  refine stable.spares _ _ holds ((confined (Generation.request project record) disk (module.1.of_links links)
    (declaration.1.of_links links)).mono ?_)
  rintro _ rfl
  exact ⟨module.2.symm, declaration.2.symm⟩

/-- A step changes nothing at a place that it does not write, but for removing artifacts. -/
theorem Stable.step (holds : Holds progress.workspace.disk) (confined : Generation.Confined engine)
    (generated : ∀ path ∈ generatedPaths project seed source scanned (progress.cache.partition source),
      base.Direct path ∧ placeOf path ≠ place)
    (rewritten : base.Direct (rewritePath project options.destination source) ∧
      placeOf (rewritePath project options.destination source) ≠ place)
    (removed : ∀ path ∈ discarded project seed source scanned (progress.cache.partition source),
      base.Direct path) :
    Holds (step project engine seed options progress source scanned).workspace.disk :=
  step_preserves (fun _ _ grown holds => stable.spares _ _ holds grown.spares) (stable.answers confined generated)
    (fun path member disk holds => stable.removes disk path (removed path member) holds)
    (fun _ _ _ wrote holds => stable.write holds rewritten.1 rewritten.2 wrote) holds

section

variable {front middle back : List (String × SourceScan)} (confined : Generation.Confined engine)
  (apart : ∀ path ∈ writtenPaths project seed options sources workspace.disk,
    (ensureDirectories project workspace.disk).2.Direct path ∧ placeOf path ≠ place)
  (removed : ∀ pair ∈ filled workspace.disk project sources, ∀ path ∈ discarded project seed pair.1 pair.2
    (Cache.partition (Cache.load workspace.disk project) pair.1),
    (ensureDirectories project workspace.disk).2.Direct path)
  (holds : Holds (Run.steps project engine seed options (start project sources workspace) front).workspace.disk)

include confined apart removed holds

omit stable in
/-- The sources of a run change nothing at a place that the run does not write, but for removing artifacts. -/
theorem Stable.steps (stable : Stable (ensureDirectories project workspace.disk).2 place Holds)
    (split : filled workspace.disk project sources = front ++ middle ++ back) :
    Holds (Run.steps project engine seed options (start project sources workspace)
      (front ++ middle)).workspace.disk := by
  rw [steps_append]
  refine steps_induction (fun later => Holds later.workspace.disk) ?_ holds
  intro early pair late inner still
  have whole : filled workspace.disk project sources = (front ++ early) ++ pair :: (late ++ back) := by
    rw [split, inner]
    simp
  have inside : pair ∈ filled workspace.disk project sources := by simp [whole]
  have known := steps_start_partition engine seed options whole
  rw [steps_append] at known
  refine stable.step still confined ?_ (apart _ (rewritePath_mem_writtenPaths inside)) ?_
  · rw [known]
    exact fun other member => apart other (generatedPaths_subset_writtenPaths inside member)
  · rw [known]
    exact removed pair inside

omit stable in
theorem Stable.last (stable : Stable (ensureDirectories project workspace.disk).2 place Holds)
    (split : filled workspace.disk project sources = front ++ middle) :
    Holds (Run.last project engine seed options sources workspace).workspace.disk := by
  unfold Run.last
  rw [split]
  exact stable.steps confined apart removed holds (split.trans (List.append_nil _).symm)

end

end

/-- What is gone when the stale artifacts of a source are removed is gone after its step. -/
theorem Gone.step {place : Place} {count : Nat}
    (generated : (stepGeneration project engine seed options progress source scanned).1 = .ok count)
    (own : base.Direct (rewritePath project options.destination source) ∧
      placeOf (rewritePath project options.destination source) ≠ place)
    (removed : Gone base place (pruned project seed source scanned (progress.cache.partition source)
      (stepGeneration project engine seed options progress source scanned).2.disk)) :
    Gone base place (Run.step project engine seed options progress source scanned).workspace.disk := by
  have written : Gone base place (stepRewriting project engine seed options progress source scanned).2 :=
    writeRewritten_preserves (fun _ _ grown gone => gone.grows grown)
      (fun _ _ _ wrote gone => (gone_stable _ _).write gone own.1 own.2 wrote) removed
  rcases step_cases project engine seed options progress source scanned with
    ⟨_, _, made, _⟩ | ⟨_, _, _, _, _, stepped⟩ | ⟨_, _, _, _, _, stepped⟩
  · rw [made] at generated
    cases generated
  · rw [stepped]
    exact written
  · rw [stepped]
    exact written

section

variable (undisturbed : Undisturbed project seed options sources workspace.disk)
  (confined : Generation.Confined engine) {front back : List (String × SourceScan)}
include undisturbed confined

/-- A source that went through generation is freed of its stale artifacts. -/
theorem gone_pruned (intact : Intact project workspace.disk)
    (generates : Generates project engine seed options sources workspace source scanned)
    (split : filled workspace.disk project sources = front ++ (source, scanned) :: back)
    (member : path ∈ discarded project seed source scanned
      (Cache.partition (Cache.load workspace.disk project) source)) :
    Gone (ensureDirectories project workspace.disk).2 (placeOf path)
      (pruned project seed source scanned (Cache.partition (Cache.load workspace.disk project) source)
        (stepGeneration project engine seed options
          (steps project engine seed options (start project sources workspace) front) source
          scanned).2.disk) := by
  have grows := ensureDirectories_grows project workspace.disk
  have same := steps_start_partition engine seed options split
  dsimp only at same
  have listed : (source, scanned) ∈ filled workspace.disk project sources := by simp [split]
  have generated := undisturbed.apart_written engine
    (generatedPaths_subset_writtenPaths listed) grows.keeps.links
  rw [← same] at generated
  have made := stepGeneration_spares options confined generated
    (steps_spares_kept undisturbed confined generates.1 split)
  have direct : ∀ path ∈ discarded project seed source scanned
      (Cache.partition (Cache.load workspace.disk project) source), workspace.disk.Direct path :=
    fun path inside => undisturbed.recorded path (recorded_of_mem_discarded inside)
  have apart : Apart (Kept project engine seed options sources workspace)
      (ensureDirectories project workspace.disk).2 (discarded project seed source scanned
        (Cache.partition (Cache.load workspace.disk project) source)) :=
    fun path inside => ⟨(direct path inside).of_links grows.keeps.links,
      fun kept => kept.2 path ⟨source, scanned, generates, inside⟩ rfl⟩
  have linkless : Linkless (ensureDirectories project workspace.disk).2 (discarded project seed source
      scanned (Cache.partition (Cache.load workspace.disk project) source)) :=
    fun path inside => (apart path inside).1.not_link
  have spares := pruned_preserves
    (fun _ inside _ => spares_removeArtifact_of_mem apart linkless inside) made
  have file := grows.keeps.isFile
    (intact source path (discarded_subset project seed source scanned _ member))
  exact ⟨spares.links, foldl_removeArtifact_fileless apart linkless member file made⟩

/-- A path that a run has freed names no file when the run stops. -/
theorem fileless_of_freed (intact : Intact project workspace.disk) (real : options.dryRun = false)
    (ran : run project engine seed options sources workspace = (.error cause, after))
    (freed : Freed project engine seed options sources workspace path) :
    after.disk.Fileless (placeOf path) := by
  obtain ⟨source, scanned, generates, member⟩ := freed
  obtain ⟨prepared, front, back, split, count, generated⟩ := id generates
  have links := (ensureDirectories_grows project workspace.disk).keeps.links
  have direct : ∀ other ∈ writtenPaths project seed options sources workspace.disk,
      (ensureDirectories project workspace.disk).2.Direct other ∧ placeOf other ≠ placeOf path :=
    fun other inside => ⟨(undisturbed.written other inside).of_links links,
      undisturbed.apart other inside path (recorded_of_mem_discarded member)⟩
  have listed : (source, scanned) ∈ filled workspace.disk project sources := by simp [split]
  have removed := gone_pruned undisturbed confined intact generates split member
  have same := steps_start_partition engine seed options split
  dsimp only at same
  rw [← same] at removed
  have stepped := removed.step generated (direct _ (rewritePath_mem_writtenPaths listed))
  have all : Gone (ensureDirectories project workspace.disk).2 (placeOf path)
      (last project engine seed options sources workspace).workspace.disk := by
    refine Stable.last confined direct
      (fun _ _ other inside => (undisturbed.recorded other (recorded_of_mem_discarded inside)).of_links links) ?_
      (gone_stable _ _) (split.trans (List.append_cons front (source, scanned) back))
    rw [steps_append, steps, steps]
    exact stepped
  rcases run_eq_stop real ran with ⟨failed, _⟩ | ⟨_, finished⟩
  · exact absurd prepared failed
  · refine (all.of_spares (finish_spares_apart ?_ finished)).2
    intro other inside
    have free := direct other (List.mem_append_left _ inside)
    exact ⟨free.1.of_links all.1, free.2⟩

theorem load_of_stop (real : options.dryRun = false)
    (ran : run project engine seed options sources workspace = (.error cause, after)) :
    Cache.load after.disk project = Cache.load workspace.disk project := by
  refine load_of_spares (stop_spares_kept undisturbed confined real ran) ⟨.inl rfl, ?_⟩
    undisturbed.document undisturbed.found
  rintro path ⟨source, scanned, _, member⟩
  exact (undisturbed.recordedDocument path (recorded_of_mem_discarded member)).symm

theorem intact_of_stop (intact : Intact project workspace.disk) (real : options.dryRun = false)
    (ran : run project engine seed options sources workspace = (.error cause, after))
    (none : ∀ path, ¬ Freed project engine seed options sources workspace path) :
    Intact project after.disk := by
  intro source path member
  rw [load_of_stop undisturbed confined real ran] at member
  refine isFile_of_spares (stop_spares_kept undisturbed confined real ran)
    ⟨.inr ⟨path, ⟨source, member⟩, rfl⟩, fun other freed => absurd freed (none other)⟩
    (undisturbed.recorded path ⟨source, member⟩) (intact source path member)

/-- A source that was written is found in its new form when the run stops. -/
theorem rewritten_of_stop (real : options.dryRun = false)
    (ran : run project engine seed options sources workspace = (.error cause, after))
    (rewrites : Rewrites project engine seed options sources workspace source scanned) :
    ∃ text, newText project seed options.destination source scanned
        (Cache.partition (Cache.load workspace.disk project) source) = .ok text ∧
      after.disk.readText (rewritePath project options.destination source) = .ok text := by
  obtain ⟨prepared, front, back, split, _⟩ := id rewrites
  have member : (source, scanned) ∈ filled workspace.disk project sources := by simp [split]
  have lasting := undisturbed.lasting member
  have links := lasting.links confined (List.append_nil _).symm
  obtain ⟨text, new, read, _⟩ := rewritten_last confined lasting rewrites
  rcases run_eq_stop real ran with ⟨failed, _⟩ | ⟨_, finished⟩
  · exact absurd prepared failed
  · refine ⟨text, new, Cache.readText_of_read ?_⟩
    have apart : Apart (· = placeOf (rewritePath project options.destination source))
        (last project engine seed options sources workspace).workspace.disk (closingPaths project options) :=
      fun path inside => ⟨(undisturbed.written path (List.mem_append_left _ inside)).of_links links,
        undisturbed.rewritten _ member path (List.mem_append_left _ inside)⟩
    have spares := finish_spares_apart apart finished
    exact spares.read (lasting.own.of_links links) rfl read

theorem not_intact_of_freed (intact : Intact project workspace.disk) (real : options.dryRun = false)
    (ran : run project engine seed options sources workspace = (.error cause, after))
    (freed : Freed project engine seed options sources workspace path) : ¬ Intact project after.disk := by
  intro still
  have fileless := fileless_of_freed undisturbed confined intact real ran freed
  obtain ⟨source, scanned, _, discarded⟩ := freed
  have member := discarded_subset project seed source scanned _ discarded
  rw [← load_of_stop undisturbed confined real ran] at member
  obtain ⟨_, place, leads, _, stands, content, rfl⟩ := Disk.isFile_iff.mp (still source path member)
  have direct := (undisturbed.recorded path (recorded_of_mem_discarded discarded)).of_links
    (stop_spares_kept undisturbed confined real ran).links
  exact fileless content (direct.leads_eq leads ▸ stands)

end

theorem exists_mem_discarded : (∃ path, path ∈ discarded project seed source scanned partition) ↔
    (Plan.ofScan project seed source scanned partition).stale ≠ [] := by
  constructor
  · rintro ⟨path, member⟩ none
    rw [discarded, none] at member
    cases member
  · intro stale
    obtain ⟨hash, inside⟩ := List.exists_mem_of_ne_nil _ stale
    exact ⟨(project.location source hash).module,
      List.mem_flatMap.mpr ⟨hash, inside, List.mem_append_right _ List.mem_cons_self⟩⟩

/-- A source finds all imports that it gains among its entries when it had an entry for each of them. -/
theorem contains_addedHashes :
    (∀ hash ∈ addedHashes project seed source scanned partition, partition.contains hash = true) ↔
      ∀ record ∈ (Plan.ofScan project seed source scanned partition).records,
        record.hash ∉ scanned.importedHashes → record.skip = true := by
  constructor
  · intro all record member added
    obtain ⟨occurrence, _, rfl⟩ := List.mem_map.mp member
    exact all _ (mem_addedHashes.mpr ⟨added, _, member, rfl⟩)
  · intro all hash member
    obtain ⟨added, record, inside, rfl⟩ := mem_addedHashes.mp member
    obtain ⟨occurrence, _, rfl⟩ := List.mem_map.mp inside
    exact all _ inside added

end Run

/-- When a run stops, the cache on the disk is as it was. Its entries all keep their artifacts exactly when
no source that went through generation had a stale entry. A source that was written stands in its new form,
and finds the imports that it gained in the cache exactly when it had all of them there before. -/
theorem stopped_run_keeps (confined : Generation.Confined engine) (real : options.dryRun = false)
    (ran : run project engine seed options sources workspace = (.error cause, after))
    (intact : Run.Intact project workspace.disk)
    (undisturbed : Run.Undisturbed project seed options sources workspace.disk) :
    Cache.load after.disk project = Cache.load workspace.disk project ∧
    (Run.Intact project after.disk ↔
      ∀ source scanned, Run.Generates project engine seed options sources workspace source scanned →
        (Plan.ofScan project seed source scanned
          (Cache.partition (Cache.load workspace.disk project) source)).stale = []) ∧
    ∀ source scanned, Run.Rewrites project engine seed options sources workspace source scanned →
      (∃ text, Run.newText project seed options.destination source scanned
          (Cache.partition (Cache.load workspace.disk project) source) = .ok text ∧
        after.disk.readText (Run.rewritePath project options.destination source) = .ok text) ∧
      ((∀ hash ∈ Run.addedHashes project seed source scanned
          (Cache.partition (Cache.load workspace.disk project) source),
        (Cache.partition (Cache.load after.disk project) source).contains hash = true) ↔
      ∀ record ∈ (Plan.ofScan project seed source scanned
          (Cache.partition (Cache.load workspace.disk project) source)).records,
        record.hash ∉ scanned.importedHashes → record.skip = true) := by
  have loaded := Run.load_of_stop undisturbed confined real ran
  refine ⟨loaded, ⟨fun still source scanned generates => ?_, fun none => ?_⟩,
    fun source scanned rewrites => ⟨?_, ?_⟩⟩
  · by_contra stale
    obtain ⟨path, member⟩ := Run.exists_mem_discarded.mpr stale
    exact Run.not_intact_of_freed undisturbed confined intact real ran
      ⟨source, scanned, generates, member⟩ still
  · refine Run.intact_of_stop undisturbed confined intact real ran ?_
    rintro path ⟨source, scanned, generates, member⟩
    exact Run.exists_mem_discarded.mp ⟨path, member⟩ (none source scanned generates)
  · exact Run.rewritten_of_stop undisturbed confined real ran rewrites
  · rw [loaded]
    exact Run.contains_addedHashes

/-! ## A run that is stopped -/

theorem mem_keys_of_mem_artifacts (member : path ∈ Partition.artifacts project source
    (Cache.partition (Cache.load disk project) source)) : source ∈ (Cache.load disk project).keys := by
  by_contra absent
  have none : (Cache.load disk project).find? source = none := by
    rwa [← Option.not_isSome_iff_eq_none, Option.isSome_iff_exists, ← Table.mem_keys]
  rw [Cache.partition, none] at member
  contradiction

/-- The document of a cache with one entry, for the declaration `d.ts`. -/
def Run.smallDocument : String :=
  "\x7b\x22a.ts\x22:\x7b\x220\x22:[\x22d.ts\x22,\x22\x22]\x7d\x7d"

/-- A disk with an entry that its source has no use for, and a directory where the entrypoint goes. -/
def stoppedDisk : Disk :=
  ⟨[(["a.ts"], .file Run.smallSource.toUTF8), (["i"], .directory), (["d.ts"], .file "".toUTF8),
    (["c"], .directory), (["c", "t"], .directory), (["c", "t", "a.ts-0.tsx"], .file "".toUTF8),
    (["c", "literals.json"], .file Run.smallDocument.toUTF8)]⟩

theorem stoppedDisk_recorded_places :
    (Cache.load stoppedDisk Run.smallProject).keys = ["a.ts"] ∧
    Partition.artifacts Run.smallProject "a.ts"
      (Cache.partition (Cache.load stoppedDisk Run.smallProject) "a.ts") =
        [⟨"/d.ts"⟩, ⟨"/c/t/a.ts-0.tsx"⟩] ∧
    ∀ path ∈ [(⟨"/d.ts"⟩ : Path), ⟨"/c/t/a.ts-0.tsx"⟩], stoppedDisk.isFile path = true ∧
      placeOf path ≠ placeOf (Cache.path Run.smallProject) ∧
      ∀ written ∈ Run.writtenPaths Run.smallProject "" {} ["a.ts"] stoppedDisk, placeOf written ≠ placeOf path := by
  decide +kernel

theorem stoppedDisk_written_places :
    stoppedDisk.node? (placeOf (Cache.path Run.smallProject)) = some (.file Run.smallDocument.toUTF8) ∧
    (stoppedDisk.read (Cache.path Run.smallProject)).toOption = some Run.smallDocument.toUTF8 ∧
    (Run.filled stoppedDisk Run.smallProject ["a.ts"]).map (·.1) = ["a.ts"] ∧
    (∀ path ∈ Run.writtenPaths Run.smallProject "" {} ["a.ts"] stoppedDisk,
      placeOf path ≠ placeOf (Cache.path Run.smallProject)) ∧
    ∀ path ∈ Run.closingPaths Run.smallProject {} ++
        Run.otherPaths Run.smallProject "" {} ["a.ts"] stoppedDisk "a.ts",
      placeOf path ≠ placeOf (Run.rewritePath Run.smallProject Destination.inPlace "a.ts") := by
  decide +kernel

theorem stoppedDisk_recorded (recorded : Run.Recorded Run.smallProject stoppedDisk path) :
    path ∈ [(⟨"/d.ts"⟩ : Path), ⟨"/c/t/a.ts-0.tsx"⟩] := by
  obtain ⟨keys, artifacts, _⟩ := stoppedDisk_recorded_places
  obtain ⟨source, member⟩ := recorded
  have only := mem_keys_of_mem_artifacts member
  rw [keys, List.mem_singleton] at only
  rwa [only, artifacts] at member

theorem intact_stoppedDisk : Run.Intact Run.smallProject stoppedDisk := fun source path member =>
  (stoppedDisk_recorded_places.2.2 path (stoppedDisk_recorded ⟨source, member⟩)).1

theorem stoppedDisk_direct (path : Path) : stoppedDisk.Direct path := by
  refine Disk.clear_of_noLink (fun place target stands => ?_) [] (Disk.pathNames path.text)
  unfold Disk.node? at stands
  split at stands
  · cases stands
  · simp only [stoppedDisk, Disk.lookup_cons, List.lookup_nil] at stands
    split_ifs at stands <;> cases stands

theorem undisturbed_stoppedDisk :
    Run.Undisturbed Run.smallProject "" {} ["a.ts"] stoppedDisk := by
  obtain ⟨node, read, filled, document, rewritten⟩ := stoppedDisk_written_places
  have places := stoppedDisk_recorded_places.2.2
  refine ⟨fun path _ => stoppedDisk_direct path, fun path _ => stoppedDisk_direct path, stoppedDisk_direct _,
    ?_, fun path member kept recorded => (places kept (stoppedDisk_recorded recorded)).2.2 path member,
    document, fun path recorded => (places path (stoppedDisk_recorded recorded)).2.1, ?_⟩
  · intro content stands
    rw [node] at stands
    cases stands
    exact eq_ok_of_toOption read
  · intro pair listed
    have only := List.mem_map_of_mem (f := Prod.fst) listed
    rw [filled, List.mem_singleton] at only
    rw [only]
    exact rewritten

theorem stoppedRun_outcome :
    let outcome := run Run.smallProject blankEngine "" {} ["a.ts"] ⟨stoppedDisk, []⟩
    outcome.1.isOk = false ∧ outcome.2.disk.isFile ⟨"/d.ts"⟩ = false := by
  decide +kernel

theorem exists_of_isOk {ε α : Type} {result : Except ε α} (ok : result.isOk = true) :
    ∃ value, result = .ok value := by
  cases result with
  | error cause => cases ok
  | ok value => exact ⟨value, rfl⟩

/-- How the only source of a run comes to be written. -/
theorem Run.rewrites_of_map {Fact : Type} {facts : Fact} {about : String × SourceScan → Fact}
    (prepared : (Run.ensureDirectories project workspace.disk).1 = .ok ())
    (only : (Run.filled workspace.disk project sources).map (fun pair =>
      (pair.1, (Run.stepGeneration project engine seed options (Run.start project sources workspace)
          pair.1 pair.2).1.isOk,
        (Run.stepRewriting project engine seed options (Run.start project sources workspace)
          pair.1 pair.2).1.isOk, about pair)) = [(source, true, true, facts)]) :
    ∃ scanned, Run.Rewrites project engine seed options sources workspace source scanned ∧
      about (source, scanned) = facts := by
  obtain ⟨⟨name, scanned⟩, rest, listed, found, none⟩ := List.map_eq_cons_iff.mp only
  rw [List.map_eq_nil_iff] at none
  subst none
  simp only [Prod.mk.injEq] at found
  obtain ⟨rfl, generated, rewritten, same⟩ := found
  exact ⟨scanned, ⟨prepared, [], [], listed, exists_of_isOk generated, exists_of_isOk rewritten⟩, same⟩

theorem stoppedRun_rewrites :
    ∃ scanned, Run.Rewrites Run.smallProject blankEngine "" {} ["a.ts"] ⟨stoppedDisk, []⟩ "a.ts" scanned ∧
      (Run.addedHashes Run.smallProject "" "a.ts" scanned
        (Cache.partition (Cache.load stoppedDisk Run.smallProject) "a.ts")).map
          (Cache.partition (Cache.load stoppedDisk Run.smallProject) "a.ts").contains = [false] :=
  @Run.rewrites_of_map _ _ _ _ _ ⟨_, _⟩ _ _ _ (fun pair => (Run.addedHashes Run.smallProject "" pair.1 pair.2
      (Cache.partition (Cache.load stoppedDisk Run.smallProject) pair.1)).map
        (Cache.partition (Cache.load stoppedDisk Run.smallProject) pair.1).contains)
    (by decide +kernel) (by decide +kernel)

theorem stopped_run_keeps_small :
    ∃ cause after, run Run.smallProject blankEngine "" {} ["a.ts"] ⟨stoppedDisk, []⟩ = (.error cause, after) ∧
      Run.Intact Run.smallProject stoppedDisk ∧
      Run.Undisturbed Run.smallProject "" {} ["a.ts"] stoppedDisk ∧
      Cache.load after.disk Run.smallProject = Cache.load stoppedDisk Run.smallProject ∧
      (Run.Intact Run.smallProject after.disk ↔
        ∀ source scanned,
          Run.Generates Run.smallProject blankEngine "" {} ["a.ts"] ⟨stoppedDisk, []⟩ source scanned →
          (Plan.ofScan Run.smallProject "" source scanned
            (Cache.partition (Cache.load stoppedDisk Run.smallProject) source)).stale = []) := by
  have stopped := stoppedRun_outcome.1
  cases ran : run Run.smallProject blankEngine "" {} ["a.ts"] ⟨stoppedDisk, []⟩ with
  | mk result after =>
      rw [ran] at stopped
      cases result with
      | ok report => cases stopped
      | error cause =>
          have kept := stopped_run_keeps confined_blankEngine rfl ran intact_stoppedDisk
            undisturbed_stoppedDisk
          exact ⟨cause, after, rfl, intact_stoppedDisk, undisturbed_stoppedDisk, kept.1, kept.2.1⟩

/-- A run that cannot write its entrypoint leaves an entry without its declaration, and a source over which
it has written an import that no entry stands for. -/
theorem stopped_run_loses_artifacts :
    ∃ cause after, run Run.smallProject blankEngine "" {} ["a.ts"] ⟨stoppedDisk, []⟩ = (.error cause, after) ∧
      Run.Intact Run.smallProject stoppedDisk ∧
      (∃ path, Run.Recorded Run.smallProject after.disk path ∧ after.disk.isFile path = false) ∧
      ∃ scanned,
        Run.Rewrites Run.smallProject blankEngine "" {} ["a.ts"] ⟨stoppedDisk, []⟩ "a.ts" scanned ∧
        ∃ hash ∈ Run.addedHashes Run.smallProject "" "a.ts" scanned
            (Cache.partition (Cache.load stoppedDisk Run.smallProject) "a.ts"),
          (Cache.partition (Cache.load after.disk Run.smallProject) "a.ts").contains hash = false := by
  have stopped := stoppedRun_outcome.1
  have lost := stoppedRun_outcome.2
  cases ran : run Run.smallProject blankEngine "" {} ["a.ts"] ⟨stoppedDisk, []⟩ with
  | mk result after =>
      rw [ran] at stopped lost
      cases result with
      | ok report => cases stopped
      | error cause =>
          -- The run has to be known before the disk, or the caches are computed to be compared.
          have kept := fun undisturbed => Run.load_of_stop undisturbed confined_blankEngine rfl ran
          have loaded := kept undisturbed_stoppedDisk
          refine ⟨cause, after, rfl, intact_stoppedDisk, ⟨⟨"/d.ts"⟩, ⟨"a.ts", ?_⟩, lost⟩, ?_⟩
          · rw [loaded, stoppedDisk_recorded_places.2.1]
            exact List.mem_cons_self
          · obtain ⟨scanned, rewrites, added⟩ := stoppedRun_rewrites
            obtain ⟨hash, _, same, fresh, _⟩ := List.map_eq_cons_iff.mp added
            exact ⟨scanned, rewrites, hash, by rw [same]; exact List.mem_cons_self, by rw [loaded, fresh]⟩

end TypedLiterals
