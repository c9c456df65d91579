import TypedLiterals.Proofs.Generation.Failure

/-!
What a run has written.

A source that is written in its new form is found so when all sources are done, as long as nothing else
that the run writes or takes away is at the same place.
-/

namespace TypedLiterals

open Disk (Place placeOf)

variable {project : Project} {engine : Engine} {seed : String} {options : Run.Options}
  {sources : List String} {workspace after : Workspace} {progress : Run.Progress}
  {report : Report} {source : String} {scanned : SourceScan} {partition : Partition} {path : Path} {disk written : Disk}

theorem Disk.read_of_write {content : ByteArray} (wrote : disk.write path content = .ok written) :
    written.read path = .ok content := by
  have keeps := Disk.keeps_write wrote
  obtain ⟨spot, named, walks, vacant, rfl⟩ := Disk.write_eq_ok wrote
  have below : spot.place ≠ [] := by
    intro root
    obtain ⟨_, same⟩ := vacant .directory (by rw [root, Disk.node?_root])
    cases same
  have stands : (disk.put spot.place (.file content)).node? spot.place = some (.file content) :=
    Disk.node?_put_self below
  exact Disk.read_eq_ok_iff.mpr
    ⟨named, spot.place, walks.of_keepsWays keeps.ways ⟨_, stands, nofun⟩, stands⟩

theorem eq_ok_of_toOption {ε α : Type} {result : Except ε α} {value : α} (same : result.toOption = some value) :
    result = .ok value := by
  cases result with
  | error _ => cases same
  | ok _ => exact congrArg _ (Option.some.inj same)

namespace Run

/-- The paths that the end of a run writes before the document of the cache is replaced. -/
def closingPaths (project : Project) (options : Run.Options) : List Path :=
  Cache.temporaryPath project :: if options.entrypoint then [project.entrypoint] else []

/-- The directory that the new form of a source is put in. -/
def outputDir (project : Project) (destination : Destination) (source : String) : Path :=
  (rewritePath project destination source).parent?.getD project.workingDir

/-- The new form of a source, for the place where it will stand. -/
def newText (project : Project) (seed : String) (destination : Destination) (source : String)
    (scanned : SourceScan) (partition : Partition) : Except Rewrite.Error String :=
  scanned.rewrite
    ((Plan.ofScan project seed source scanned partition).records.map fun record =>
      ⟨record.hash, record.location.module⟩)
    (outputDir project destination source)

/-- What it takes to write a source: its new form, the directory for it, and room for the file. -/
theorem rewriting_eq_ok
    (wrote : (rewriting project seed options source scanned partition disk).1 = .ok path) :
    ∃ text prepared written, newText project seed options.destination source scanned partition = .ok text ∧
      (pruned project seed source scanned partition disk).ensureDirectory
        (outputDir project options.destination source) = (.ok (), prepared) ∧
      prepared.writeText (rewritePath project options.destination source) text = .ok written ∧
      rewriting project seed options source scanned partition disk =
        (.ok (rewritePath project options.destination source), written) := by
  unfold rewriting writeRewritten at wrote ⊢
  unfold newText outputDir
  dsimp only at wrote ⊢
  cases rewritten : scanned.rewrite
      ((Plan.ofScan project seed source scanned partition).records.map fun record =>
        ⟨record.hash, record.location.module⟩)
      ((rewritePath project options.destination source).parent?.getD project.workingDir) with
  | error cause => simp [rewritten] at wrote
  | ok text =>
      cases made : (pruned project seed source scanned partition disk).ensureDirectory
          ((rewritePath project options.destination source).parent?.getD project.workingDir) with
      | mk result prepared =>
          cases result with
          | error fault => simp [rewritten, made] at wrote
          | ok _ =>
              cases put : prepared.writeText (rewritePath project options.destination source) text with
              | error fault => simp [rewritten, made, put] at wrote
              | ok written => exact ⟨text, prepared, written, rfl, rfl, put, by simp [put]⟩

/-- Whether a run takes a source through generation. -/
def Generates (project : Project) (engine : Engine) (seed : String) (options : Run.Options)
    (sources : List String) (workspace : Workspace) (source : String) (scanned : SourceScan) : Prop :=
  (ensureDirectories project workspace.disk).1 = .ok () ∧
    ∃ front back, filled workspace.disk project sources = front ++ (source, scanned) :: back ∧
      ∃ count, (stepGeneration project engine seed options
        (steps project engine seed options (start project sources workspace) front) source scanned).1 =
          .ok count

/-- Whether a run writes a source in its new form. -/
def Rewrites (project : Project) (engine : Engine) (seed : String) (options : Run.Options)
    (sources : List String) (workspace : Workspace) (source : String) (scanned : SourceScan) : Prop :=
  (ensureDirectories project workspace.disk).1 = .ok () ∧
    ∃ front back, filled workspace.disk project sources = front ++ (source, scanned) :: back ∧
      (∃ count, (stepGeneration project engine seed options
        (steps project engine seed options (start project sources workspace) front) source scanned).1 =
          .ok count) ∧
      ∃ path, (stepRewriting project engine seed options
        (steps project engine seed options (start project sources workspace) front) source scanned).1 =
          .ok path

/-- The paths that the sources of a run may write or free, but for the new form of one source. -/
def otherPaths (project : Project) (seed : String) (options : Run.Options) (sources : List String)
    (disk : Disk) (source : String) : List Path :=
  (filled disk project sources).flatMap fun pair =>
    let partition := Cache.partition (Cache.load disk project) pair.1
    generatedPaths project seed pair.1 pair.2 partition ++
      (if pair.1 = source then [] else [rewritePath project options.destination pair.1]) ++
      discarded project seed pair.1 pair.2 partition

/-- Whether the new form of a source has a place of its own, and no link stands on the way of what the run
writes or frees. -/
structure Lasting (project : Project) (seed : String) (options : Run.Options) (sources : List String)
    (disk : Disk) (source : String) : Prop where
  own : disk.Direct (rewritePath project options.destination source)
  direct : ∀ path ∈ otherPaths project seed options sources disk source, disk.Direct path
  apart : ∀ path ∈ otherPaths project seed options sources disk source,
    placeOf path ≠ placeOf (rewritePath project options.destination source)

theorem mem_otherPaths_of_generated {pair : String × SourceScan} (member : pair ∈ filled disk project sources)
    (inside : path ∈ generatedPaths project seed pair.1 pair.2
      (Cache.partition (Cache.load disk project) pair.1)) :
    path ∈ otherPaths project seed options sources disk source :=
  List.mem_flatMap.mpr ⟨pair, member, by simp [inside]⟩

theorem mem_otherPaths_of_discarded {pair : String × SourceScan} (member : pair ∈ filled disk project sources)
    (inside : path ∈ discarded project seed pair.1 pair.2
      (Cache.partition (Cache.load disk project) pair.1)) :
    path ∈ otherPaths project seed options sources disk source :=
  List.mem_flatMap.mpr ⟨pair, member, by simp [inside]⟩

theorem rewritePath_mem_otherPaths {pair : String × SourceScan} (member : pair ∈ filled disk project sources)
    (other : pair.1 ≠ source) : rewritePath project options.destination pair.1 ∈
      otherPaths project seed options sources disk source :=
  List.mem_flatMap.mpr ⟨pair, member, by simp [other]⟩

/-- The step of a source touches no place that is held, if none is one of its paths. -/
theorem Lasting.harmless {Held : Place → Prop} {pair : String × SourceScan}
    (lasting : Lasting project seed options sources disk source)
    (links : ∀ place target, written.node? place = some (.link target) →
      disk.node? place = some (.link target))
    (member : pair ∈ filled disk project sources)
    (free : ∀ path ∈ otherPaths project seed options sources disk source, ¬ Held (placeOf path))
    (own : pair.1 = source → ¬ Held (placeOf (rewritePath project options.destination source))) :
    Harmless project seed options.destination Held written pair.1 pair.2
      (Cache.partition (Cache.load disk project) pair.1) := by
  have apart : ∀ path ∈ otherPaths project seed options sources disk source,
      written.Direct path ∧ ¬ Held (placeOf path) :=
    fun path inside => ⟨(lasting.direct path inside).of_links links, free path inside⟩
  refine ⟨fun path inside => apart path (mem_otherPaths_of_generated member inside), ?_,
    fun path inside => (apart path (mem_otherPaths_of_discarded member inside)).1.not_link⟩
  intro path inside
  rcases List.mem_cons.mp inside with rfl | inside
  · by_cases same : pair.1 = source
    · exact same ▸ ⟨lasting.own.of_links links, own same⟩
    · exact apart _ (rewritePath_mem_otherPaths member same)
  · exact apart path (mem_otherPaths_of_discarded member inside)

section

variable (confined : Generation.Confined engine)
  (lasting : Lasting project seed options sources workspace.disk source)
  {front back : List (String × SourceScan)}
include confined lasting

theorem Lasting.links (split : filled workspace.disk project sources = front ++ back) :
    ∀ place target, (steps project engine seed options (start project sources workspace)
        front).workspace.disk.node? place = some (.link target) →
      workspace.disk.node? place = some (.link target) := by
  have grows := ensureDirectories_grows project workspace.disk
  have distinct := nodup_filled workspace.disk project sources
  rw [split, List.map_append] at distinct
  have spares : (ensureDirectories project workspace.disk).2.Spares (fun _ => False)
      (steps project engine seed options (start project sources workspace) front).workspace.disk := by
    refine steps_spares confined (List.nodup_append'.mp distinct).1 (fun pair member => ?_)
      (by rw [start_disk]; exact .refl _)
    rw [start_cache]
    exact lasting.harmless grows.keeps.links (by simp [split, member]) (fun _ _ => id) fun _ => id
  exact fun place target link => grows.keeps.links place target (spares.links place target link)

/-- A source that a run has written is found in its new form when all sources are done, in a directory that
was made for it. -/
theorem rewritten_last
    (rewrites : Rewrites project engine seed options sources workspace source scanned) :
    ∃ text, newText project seed options.destination source scanned
        (Cache.partition (Cache.load workspace.disk project) source) = .ok text ∧
      (last project engine seed options sources workspace).workspace.disk.read
        (rewritePath project options.destination source) = .ok text.toUTF8 ∧
      ∃ place, (last project engine seed options sources workspace).workspace.disk.Opens
        (outputDir project options.destination source) place := by
  obtain ⟨_, front, back, split, ⟨count, generated⟩, path, wrote⟩ := rewrites
  have same := steps_start_partition engine seed options split
  dsimp only at same
  obtain ⟨text, prepared, written, new, made, put, rewritten⟩ := rewriting_eq_ok wrote
  rw [same] at new
  have stepped : (step project engine seed options
      (steps project engine seed options (start project sources workspace) front) source
      scanned).workspace.disk = written := by
    rcases step_cases project engine seed options
        (steps project engine seed options (start project sources workspace) front) source scanned with
      ⟨_, _, failed, _⟩ | ⟨_, _, _, _, failed, _⟩ | ⟨_, _, _, _, _, stepped⟩
    · rw [failed] at generated
      cases generated
    · rw [failed] at wrote
      cases wrote
    · rw [stepped, Progress.done, stepRewriting, rewritten]
  have listed : filled workspace.disk project sources = (front ++ [(source, scanned)]) ++ back := by
    rw [split, List.append_assoc, List.singleton_append]
  have links := lasting.links confined listed
  rw [steps_append, steps, steps, stepped] at links
  obtain ⟨_, distinctBack, _, others⟩ :=
    around_of_distinct (split ▸ nodup_filled workspace.disk project sources)
  have spares : written.Spares (· = placeOf (rewritePath project options.destination source))
      (last project engine seed options sources workspace).workspace.disk := by
    unfold last
    rw [split, steps_append, steps]
    refine steps_spares confined distinctBack (fun pair member => ?_) (by rw [stepped]; exact .refl _)
    obtain ⟨other, later⟩ := others pair member
    rw [step_partition other, steps_partition later, start_cache]
    exact lasting.harmless links (by simp [split, member]) lasting.apart fun same => absurd same other
  obtain ⟨place, opens⟩ := Disk.ensureDirectory_opens (by rw [made])
  rw [made] at opens
  exact ⟨text, new, spares.read (lasting.own.of_links links) rfl (Disk.read_of_write put), place,
    opens.of_keepsWays ((Disk.keeps_write put).ways.trans spares.ways)⟩

end

end Run

end TypedLiterals
